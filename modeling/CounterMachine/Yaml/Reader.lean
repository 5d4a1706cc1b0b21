import CounterMachine.Yaml.Layout

/-! # Reading YAML

A document is read from its tokens.  A node that is left out is an empty plain scalar.  One text
holds one document, or none, which counts as one whose content is left out.

* `Yaml.parse?`   the document that a text holds

`fuel` bounds the nesting and the number of nodes together; thrice the number of tokens is
enough. -/

namespace CounterMachine.Yaml

/-- What a reader works on. -/
structure Reading where
  tokens : List Token
  /-- The number of each anchor that has been met. -/
  anchors : List (String × Nat) := []
  /-- What the handles of tags stand for. -/
  handles : List (String × String) := []

/-- A reader of tokens, which may fail. -/
abbrev Reader := StateT Reading Option

namespace Reader

/-- The next token. -/
def peek : Reader (Option Token) := do return (← get).tokens.head?

/-- Passes over the next token. -/
def skip : Reader Unit := modify fun r => { r with tokens := r.tokens.drop 1 }

/-- Passes over the next token if it is the given one. -/
def skipIf (token : Token) : Reader Bool := do
  if (← peek) = some token then
    skip
    return true
  else
    return false

/-- Passes over the next token, which must be the given one. -/
def expect (token : Token) : Reader Unit := do
  if !(← skipIf token) then
    failure

/-- Reads a node, which is left out if one of the given tokens comes next. -/
def orMissing (stops : List Token) (node : Reader Yaml) : Reader Yaml := do
  if (← peek).any stops.contains then return missing else node

/-- Reads a node, which is left out if one of the given tokens comes next; that token is passed
over. -/
def skipOr (stops : List Token) (node : Reader Yaml) : Reader Yaml := do
  if (← peek).any stops.contains then
    skip
    return missing
  else node

/-- The number of an anchor that a node carries: how many other names have been met. -/
def define (name : String) : Reader Nat := do
  let r ← get
  let number := r.anchors.length
  set { r with anchors := (name, number) :: r.anchors.filter (·.1 != name) }
  return number

/-- The number of an anchor that has been met. -/
def find (name : String) : Reader Nat := do
  match (← get).anchors.lookup name with
  | some number => return number
  | none => failure

/-- A tag in full. -/
def resolve (handle suffix : String) : Reader String := do
  if handle.isEmpty then
    return suffix
  match (← get).handles.lookup handle with
  | some stem => return stem ++ suffix
  | none => failure

/-- Reads the name of an anchor, if there is one. -/
def anchorName : Reader (Option String) := do
  match ← peek with
  | some (.anchor name) =>
    skip
    return some name
  | _ => return none

/-- Reads a tag, if there is one. -/
def tagName : Reader (Option String) := do
  match ← peek with
  | some (.tag handle suffix) =>
    skip
    return some (← resolve handle suffix)
  | _ => return none

/-- Reads the anchor and the tag of a node, in either order. -/
def properties : Reader (Option Nat × Option String) := do
  let first ← anchorName
  let tag ← tagName
  let name ← if first.isNone && tag.isSome then anchorName else pure first
  return (← name.mapM define, tag)

mutual

/-- Reads a node.  One in the block form may start here only if `block` says so, and a sequence
whose dashes stand in the column of their key only if `indentless` does. -/
def node : (fuel : Nat) → (block indentless : Bool) → Reader Yaml
  | 0, _, _ => failure
  | fuel + 1, block, indentless => do
    if let some (.reference name) := ← peek then
      skip
      return .reference (← find name)
    let (anchor, tag) ← properties
    match ← peek, block, indentless with
    | some .dash, _, true => return .sequence anchor (← dashes fuel)
    | some (.scalar style text), _, _ =>
      skip
      return .scalar anchor tag style text
    | some .flowSequenceStart, _, _ =>
      skip
      return .sequence anchor (← flowItems fuel true)
    | some .flowMappingStart, _, _ =>
      skip
      return .mapping anchor (← flowEntries fuel true)
    | some .sequenceStart, true, _ =>
      skip
      return .sequence anchor (← items fuel)
    | some .mappingStart, true, _ =>
      skip
      return .mapping anchor (← entries fuel)
    | _, _, _ =>
      if anchor.isSome || tag.isSome then return .scalar anchor tag .plain "" else failure

/-- Reads the items of a sequence in the block form, up to its end. -/
def items : (fuel : Nat) → Reader (List Yaml)
  | 0 => failure
  | fuel + 1 => do
    if ← skipIf .blockEnd then
      return []
    expect .dash
    let item ← orMissing [.dash, .blockEnd] (node fuel true false)
    return item :: (← items fuel)

/-- Reads the items of a sequence whose dashes stand in the column of their key. -/
def dashes : (fuel : Nat) → Reader (List Yaml)
  | 0 => failure
  | fuel + 1 => do
    if !(← skipIf .dash) then
      return []
    let item ← orMissing [.dash, .key, .value, .blockEnd] (node fuel true false)
    return item :: (← dashes fuel)

/-- Reads the entries of a mapping in the block form, up to its end. -/
def entries : (fuel : Nat) → Reader (List (Yaml × Yaml))
  | 0 => failure
  | fuel + 1 => do
    if ← skipIf .blockEnd then
      return []
    expect .key
    let content := orMissing [.key, .value, .blockEnd] (node fuel true true)
    let key ← content
    let value ← if ← skipIf .value then content else pure missing
    return (key, value) :: (← entries fuel)

/-- Reads the items of a sequence in the flow form, up to its closing bracket.  An item may be a
single entry of a mapping; if the key of that entry is left out, the token behind the question
mark is passed over. -/
def flowItems : (fuel : Nat) → (first : Bool) → Reader (List Yaml)
  | 0, _ => failure
  | fuel + 1, first => do
    if ← skipIf .flowSequenceEnd then
      return []
    if !first then
      expect .comma
    if ← skipIf .flowSequenceEnd then
      return []
    if ← skipIf .key then
      let key ← skipOr [.value, .comma, .flowSequenceEnd] (node fuel false false)
      let value ← if ← skipIf .value then
          orMissing [.comma, .flowSequenceEnd] (node fuel false false)
        else pure missing
      return .mapping none [(key, value)] :: (← flowItems fuel false)
    let item ← node fuel false false
    return item :: (← flowItems fuel false)

/-- Reads the entries of a mapping in the flow form, up to its closing brace. -/
def flowEntries : (fuel : Nat) → (first : Bool) → Reader (List (Yaml × Yaml))
  | 0, _ => failure
  | fuel + 1, first => do
    if ← skipIf .flowMappingEnd then
      return []
    if !first then
      expect .comma
    if ← skipIf .flowMappingEnd then
      return []
    if ← skipIf .key then
      let key ← orMissing [.value, .comma, .flowMappingEnd] (node fuel false false)
      let value ← if ← skipIf .value then
          orMissing [.comma, .flowMappingEnd] (node fuel false false)
        else pure missing
      return (key, value) :: (← flowEntries fuel false)
    let key ← node fuel false false
    return (key, missing) :: (← flowEntries fuel false)

end

end Reader

namespace Token

/-- Whether a token says how a document is to be understood. -/
def isDirective : Token → Bool
  | version _ _ => true
  | tagRule _ _ => true
  | _ => false

/-- Whether a token ends the content of a document. -/
def endsContent : Token → Bool
  | documentStart => true
  | documentEnd => true
  | token => token.isDirective

/-- The version that a token says a document is written in. -/
def version? : Token → Option (Nat × Nat)
  | version major minor => some (major, minor)
  | _ => none

/-- The handle of tags that a token explains, and what it stands for. -/
def handle? : Token → Option (String × String)
  | tagRule handle stem => some (handle, stem)
  | _ => none

end Token

/-- What the handles of tags stand for in every document that does not say otherwise. -/
def standardHandles : List (String × String) := [("!", "!"), ("!!", "tag:yaml.org,2002:")]

/-- Whether directives are those of a document: at most one version, which is 1.1 or 1.2, and no
handle that is explained twice. -/
def areDirectives (directives : List Token) : Bool :=
  let versions := directives.filterMap Token.version?
  let handles := (directives.filterMap Token.handle?).map (·.1)
  versions.length ≤ 1 && versions.all [(1, 1), (1, 2)].contains && handles.Nodup

/-- Reads a document: directives and a mark, which may be left out if there are none, and the
content, which may be left out behind the mark or if nothing follows at all. -/
def Reader.document (fuel : Nat) : Reader Yaml := do
  let r ← get
  let directives := r.tokens.takeWhile Token.isDirective
  if !areDirectives directives then
    failure
  set { r with tokens := r.tokens.drop directives.length
               handles := directives.filterMap Token.handle? ++ standardHandles }
  let marked ← skipIf .documentStart
  if !marked && !directives.isEmpty then
    failure
  if (← peek).all fun token => marked && token.endsContent then return missing
  else node fuel true false

/-- Reads a text that holds one document, or none. -/
def parse? (text : String) : Option Yaml := do
  let tokens ← tokens? (← spots text)
  let (document, r) ← (Reader.document (3 * tokens.length + 3)).run { tokens }
  if r.tokens.all (· = .documentEnd) then some document else none

end CounterMachine.Yaml
