import EventSourcing.Settings.Yaml.Scanner

/-!
# Plain scalars

A plain scalar goes on up to a comment, a colon that ends a key, a mark between documents or, in
flow form, a flow mark. It may go on over several lines, which have to be indented by more than the
column that is open; its breaks are folded like those of text in quotes.
-/

namespace EventSourcing
namespace Yaml
namespace Plain

/-- Whether a colon before what follows ends a plain scalar. -/
def endsKey (inFlow : Bool) (rest : List Char) : Bool :=
  let next := rest.headD '\x00'
  endsWord next || (inFlow && isFlowMark next)

/-- The word at the beginning of a text. -/
def word (inFlow : Bool) : List Char → List Char
  | [] => []
  | c :: r =>
    if endsWord c || (c = ':' && endsKey inFlow r) || (inFlow && isFlowMark c) then []
    else c :: word inFlow r

/-- A plain scalar so far. -/
structure Part where
  cursor : Cursor
  /-- The text, reversed. -/
  text : List Char := []
  /-- The blanks after the text on its line. -/
  blanks : List Char := []
  /-- Whether the line of the text has ended. -/
  broken : Bool := false
  /-- The breaks after the end of the line. -/
  breaks : Nat := 0
  deriving Repr

/-- What stands between the text so far and the next word. -/
def Part.joint (p : Part) : List Char :=
  if !p.cursor.fresh then p.blanks
  else if p.broken && p.breaks = 0 then [' ']
  else List.replicate p.breaks '\n'

/-- Adds the word that comes next, if one does. -/
def Part.addWord (inFlow : Bool) (p : Part) : Part :=
  match word inFlow p.cursor.rest with
  | [] => p
  | w => { cursor := p.cursor.pass w.length, text := w.reverse ++ p.joint.reverse ++ p.text }

/-- Passes blanks and breaks. A tab before the least column of the scalar may only stand on a line
without content. -/
def skipGap (least : Int) : Nat → Part → Option Part
  | 0, _ => none
  | steps + 1, p =>
    let c := p.cursor
    if isBlank c.peek then
      if !c.fresh then
        skipGap least steps { p with cursor := c.skip 1, blanks := p.blanks ++ [c.peek] }
      else if c.column < least && c.peek = '\t' then
        match c.skipToContent with
        | none => none
        | some (_, c) =>
          if endsLine c.peek then skipGap least steps { p with cursor := c } else none
      else skipGap least steps { p with cursor := c.skip 1 }
    else if isBreak c.peek then
      if c.fresh then skipGap least steps { p with cursor := c.nextLine, breaks := p.breaks + 1 }
      else skipGap least steps { p with cursor := c.nextLine, blanks := [], broken := true }
    else some p

/-- Reads words and gaps up to the end of the scalar. -/
def readFrom (inFlow : Bool) (least : Int) : Nat → Part → Option Part
  | 0, _ => none
  | steps + 1, p =>
    if p.cursor.atDocumentMark || p.cursor.peek = '#' then some p
    else if inFlow && p.cursor.peek = '-' && isFlowMark (p.cursor.peekAt 1) then none
    else
      let p := p.addWord inFlow
      if isBlank p.cursor.peek || isBreak p.cursor.peek then
        match skipGap least (p.cursor.rest.length + 1) p with
        | none => none
        | some p =>
          if !inFlow && p.cursor.column < least then some p else readFrom inFlow least steps p
      else some p

end Plain

/-- Reads a plain scalar. On a new line a key may begin. -/
def Scanner.readPlain (s : Scanner) : Option (List Char × Scanner) :=
  let s := s.leaveOpenColumns
  let least := s.indent + 1
  if s.inFlow && s.cursor.column < least then none
  else
    match Plain.readFrom s.inFlow least (s.cursor.rest.length + 1) { cursor := s.cursor } with
    | none => none
    | some p =>
      if p.text.isEmpty then none
      else
        some (p.text.reverse,
          { s with cursor := p.cursor, keyAllowed := s.keyAllowed || p.cursor.fresh })

end Yaml
end EventSourcing
