/-! # JSON values

Engine data is exchanged as JSON.  A number keeps apart whether it was written as an integer,
since counters and indexes accept nothing else.  The members of an object keep their order and
may repeat a name.

An escape can spell half a surrogate pair, which is no character.  A string with one, and an
object with a name with one, is written down correctly and can be passed over, but has no content:
it is the value `unreadable`. -/

namespace CounterMachine

/-- A JSON value. -/
inductive Json where
  | null
  | bool (value : Bool)
  /-- A number written without a fraction and without an exponent. -/
  | integer (value : Int)
  /-- Any other number, as it is written. -/
  | decimal (text : String)
  | string (text : String)
  | array (items : List Json)
  | object (members : List (String × Json))
  /-- A string that is no text, or an object with a name that is none. -/
  | unreadable
  deriving Repr, Inhabited

namespace Json

/-- A natural number as JSON. -/
def nat (n : Nat) : Json := integer n

/-- A machine word as JSON. -/
def word (w : UInt64) : Json := nat w.toNat

/-- The value of a member; of two members with one name the later counts. -/
def member? : Json → String → Option Json
  | object members, name => (members.reverse.find? (·.1 == name)).map (·.2)
  | _, _ => none

/-- A string, given its text if it is one. -/
def ofText : Option String → Json
  | some text => string text
  | none => unreadable

/-- An object, given the name of each member if it is a text. -/
def ofMembers (members : List (Option String × Json)) : Json :=
  match members.mapM fun (name, value) => name.map fun name => (name, value) with
  | some members => object members
  | none => unreadable

mutual

/-- How many arrays and objects are nested in a value, itself included. -/
def depth : Json → Nat
  | array items => 1 + depthItems items
  | object members => 1 + depthMembers members
  | _ => 0

/-- How many arrays and objects are nested in the values of a list. -/
def depthItems : List Json → Nat
  | [] => 0
  | item :: rest => max item.depth (depthItems rest)

/-- How many arrays and objects are nested in the values of members. -/
def depthMembers : List (String × Json) → Nat
  | [] => 0
  | (_, value) :: rest => max value.depth (depthMembers rest)

end

mutual

/-- Whether a value has content, and all that is nested in it. -/
def isReadable : Json → Bool
  | unreadable => false
  | array items => readableItems items
  | object members => readableMembers members
  | _ => true

/-- Whether the values of a list have content. -/
def readableItems : List Json → Bool
  | [] => true
  | item :: rest => item.isReadable && readableItems rest

/-- Whether the values of members have content. -/
def readableMembers : List (String × Json) → Bool
  | [] => true
  | (_, value) :: rest => value.isReadable && readableMembers rest

end

end Json

end CounterMachine
