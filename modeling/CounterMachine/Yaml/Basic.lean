/-! # YAML documents

Settings are written down as YAML: scalars, sequences and mappings, nested in each other.

A node may carry an anchor, and a reference stands for the node that carries its anchor.  Anchors
are numbered, and where several nodes carry one number, the last of them counts.

* `Yaml`                the content of a document, or a part of it
* `Yaml.target?`        the node that carries an anchor
* `Yaml.content`        a node itself, or the node for which it stands -/

namespace CounterMachine

/-- How a scalar is written. -/
inductive Yaml.Style where
  | plain
  | singleQuoted
  | doubleQuoted
  | literal
  | folded
  deriving DecidableEq, Repr, Inhabited

/-- The content of a YAML document, or a part of it. -/
inductive Yaml where
  | scalar (anchor : Option Nat) (tag : Option String) (style : Yaml.Style) (text : String)
  | sequence (anchor : Option Nat) (items : List Yaml)
  | mapping (anchor : Option Nat) (entries : List (Yaml × Yaml))
  | reference (anchor : Nat)
  deriving Repr, Inhabited

namespace Yaml

/-- The node that is left out. -/
def missing : Yaml := .scalar none none .plain ""

mutual

/-- The last node that carries an anchor. -/
def target? (number : Nat) : Yaml → Option Yaml
  | scalar anchor tag style text =>
    if anchor = some number then some (scalar anchor tag style text) else none
  | sequence anchor items =>
    (targetInItems number items).or
      (if anchor = some number then some (sequence anchor items) else none)
  | mapping anchor entries =>
    (targetInEntries number entries).or
      (if anchor = some number then some (mapping anchor entries) else none)
  | reference _ => none

/-- The last node in a list that carries an anchor. -/
def targetInItems (number : Nat) : List Yaml → Option Yaml
  | [] => none
  | item :: rest => (targetInItems number rest).or (item.target? number)

/-- The last node in the entries of a mapping that carries an anchor. -/
def targetInEntries (number : Nat) : List (Yaml × Yaml) → Option Yaml
  | [] => none
  | (key, value) :: rest =>
    (targetInEntries number rest).or ((value.target? number).or (key.target? number))

end

/-- What a node of a document is: itself, or the node for which it stands. -/
def content (document : Yaml) : Yaml → Yaml
  | reference number => (document.target? number).getD (reference number)
  | node => node

/-- The tag of truth values. -/
def boolTag : String := "tag:yaml.org,2002:bool"

/-- A truth value: one of the two words in one of three spellings, plain, or literal with the tag
of truth values. -/
def asBool : Yaml → Option Bool
  | scalar _ tag style text =>
    if style = .plain || (style = .literal && tag = some boolTag) then
      if ["true", "True", "TRUE"].contains text then some true
      else if ["false", "False", "FALSE"].contains text then some false
      else none
    else none
  | _ => none

/-- A text: any scalar. -/
def asString : Yaml → Option String
  | scalar _ _ _ text => some text
  | _ => none

end Yaml

end CounterMachine
