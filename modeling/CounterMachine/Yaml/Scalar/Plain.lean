import CounterMachine.Yaml.Scalar.Gap

/-! # Plain scalars

A plain scalar stands without quotes.  It ends before a colon with a gap behind it, before a
comment, before a line that stands too far left, and in the flow form before a bracket or a
comma.

* `startsPlain`   whether a plain scalar starts here
* `readPlain`     its text, and the gap that has been read behind it -/

namespace CounterMachine.Yaml

/-- Whether a character takes part in the flow form. -/
def isFlowIndicator (c : Char) : Bool :=
  c = ',' || c = '[' || c = ']' || c = '\x7b' || c = '\x7d'

/-- The characters with which a plain scalar does not start. -/
def indicators : List Char :=
  ['-', '?', ':', ',', '[', ']', '\x7b', '\x7d', '#', '&', '*', '!', '|', '>', '\x27', '"', '%',
    '@', '\x60']

/-- Whether a plain scalar starts here.  Some indicators start one if no gap follows. -/
def startsPlain (flow : Bool) : List Spot → Bool
  | [] => false
  | s :: rest =>
    if s.char = '-' then !startsGap rest
    else if s.char = '?' || s.char = ':' then !flow && !startsGap rest
    else !indicators.contains s.char && !isGap s.char

/-- Whether a plain scalar ends behind a gap: a line stands left of column `least`, a document
ends or a comment starts. -/
def endsBehindGap (flow : Bool) (least : Nat) (text : List Spot) : Bool :=
  match text with
  | [] => true
  | s :: _ => (!flow && s.column < least) || startsAnyMark text || s.char = '#'

/-- Reads a plain scalar whose further lines stand at column `least` or behind it.  `read` holds
the characters read so far, the latest first, and `gap` what stands behind them. -/
def readPlain (flow : Bool) (least : Nat) (read : List Char) (gap : Gap) :
    List Spot → Option (String × Gap × List Spot)
  | [] => some (String.ofList read.reverse, gap, [])
  | s :: rest =>
    let stop := some (String.ofList read.reverse, gap, s :: rest)
    if isGap s.char then
      -- A tab does not indent a line.
      if s.char = '\t' && gap.isBroken && s.column < least then none
      else readPlain flow least read (gap.push s.char) rest
    else if !gap.isEmpty && endsBehindGap flow least (s :: rest) then stop
    else if flow && s.char = ':' &&
        rest.head?.any (fun next => isFlowIndicator next.char || next.char = '?') then none
    else if (s.char = ':' && startsGap rest) || (flow && isFlowIndicator s.char) then stop
    else readPlain flow least (s.char :: (gap.folded ++ read)) .empty rest

end CounterMachine.Yaml
