import EventSourcing.Settings.Yaml.Block
import EventSourcing.Settings.Yaml.Plain
import EventSourcing.Settings.Yaml.Quoted
import EventSourcing.Settings.Yaml.Tag

/-!
# Reading tokens

`Scanner.next` passes the space before the next token, ends the columns that the token stands
before, and reads it; what a token is depends on its first character or two. A text ends at its end
or at a character zero. `tokensOf` reads a text whole.
-/

namespace EventSourcing
namespace Yaml
namespace Scanner

/-- Moves to another place. -/
def moveTo (c : Cursor) (s : Scanner) : Scanner := { s with cursor := c }

/-! ## Marks -/

/-- Reads the end of the text. -/
def readEnd (s : Scanner) : Option Scanner :=
  if s.keys.any fun k => k.possible && k.required then none
  else
    let dropped (k : KeyStart) : KeyStart := { k with possible := false }
    let s := { s with keys := s.keys.map dropped }
    some ((s.closeColumns (-1)).push .streamEnd)

/-- Reads a mark between documents. -/
def readDocumentMark (t : Token) (s : Scanner) : Option Scanner := do
  let s ← (s.closeColumns (-1)).dropKey
  return ({ s with keyAllowed := false }.moveTo (s.cursor.pass 3)).push t

/-- Reads a directive. -/
def readDirectiveLine (s : Scanner) : Option Scanner := do
  let s ← (s.closeColumns (-1)).dropKey
  let (t, c) ← readDirective s.cursor
  return ({ s with keyAllowed := false }.moveTo c).push t

/-- Reads the begin of a list or a mapping in flow form. -/
def readFlowStart (t : Token) (s : Scanner) : Option Scanner := do
  let s ← s.saveKey.openNextColumn.enterFlow
  let s := { s with keyAllowed := true }
  let s :=
    if t = .flowMapping then { s with inFlowMapping := true }
    else { s with pairs := false :: s.pairs }
  let s ← (s.moveTo (s.cursor.pass 1)).skipToContent
  return s.push t

/-- Reads the end of a list or a mapping in flow form. -/
def readFlowEnd (t : Token) (s : Scanner) : Option Scanner := do
  let s := (← s.dropKey).leaveFlow
  let s := { s with keyAllowed := false }
  let s := if t = .flowListEnd then { s.endPair with pairs := s.endPair.pairs.drop 1 } else s
  let s ← (s.moveTo (s.cursor.pass 1)).skipToContent
  let s := if s.inFlow then { s with adjacent := s.cursor.index } else s
  return s.push t

/-- Reads a comma. -/
def readFlowEntry (s : Scanner) : Option Scanner := do
  let s ← s.dropKey
  let s := { s with keyAllowed := true }.endPair
  let s ← (s.moveTo (s.cursor.pass 1)).skipToContent
  return s.push .flowEntry

/-- Reads the dash of an item. -/
def readBlockEntry (s : Scanner) : Option Scanner := do
  if s.inFlow || !s.keyAllowed then none
  else if s.propertyColumn = some 0 ∧ s.cursor.column = 0 ∧ -1 < s.indent then none
  else
    let column := s.cursor.column
    let s := (s.moveTo (s.cursor.pass 1)).openColumn column none .blockList
    let (blanks, c) ← s.cursor.skipToContent
    if blanks.tabs && c.peek = '-' && endsWord (c.peekAt 1) then none
    else
      let s := s.moveTo c
      let s := if isBreak c.peek || isFlowMark c.peek then s.openNextColumn else s
      let s ← s.dropKey
      return { s with keyAllowed := true }.push .blockEntry

/-- Passes the space after a question mark; tells whether there was any. -/
def skipKeySpace : Nat → Bool → Scanner → Bool × Scanner
  | 0, found, s => (found, s)
  | steps + 1, found, s =>
    let c := s.cursor
    if c.peek = ' ' then skipKeySpace steps true (s.moveTo (c.skip 1))
    else if isBreak c.peek then
      skipKeySpace steps true
        { s with cursor := c.nextLine, keyAllowed := s.keyAllowed || !s.inFlow }
    else if c.peek = '#' then skipKeySpace steps found (s.moveTo c.passLine)
    else (found, s)

/-- Reads the question mark of a key. -/
def readKey (s : Scanner) : Option Scanner := do
  if !s.inFlow && !s.keyAllowed then none
  else
    let s :=
      if s.inFlow then { s with inFlowMapping := true }
      else s.openColumn s.cursor.column none .blockMapping
    let s ← s.dropKey
    let s := { s with keyAllowed := !s.inFlow }
    let s := s.moveTo (s.cursor.pass 1)
    let (found, s) := skipKeySpace (s.cursor.rest.length + 1) false s
    if !found || s.peek = '\t' then none else return s.push .key

/-- Whether the space after the colon of a value is fit for one: after tabs alone no word may
begin. -/
def passColon (s : Scanner) : Option Scanner :=
  let c := s.cursor.pass 1
  if c.peek ≠ '\t' then some (s.moveTo c)
  else
    match c.skipToContent with
    | none => none
    | some (blanks, c) => if !blanks.spaces && isNameChar c.peek then none else some (s.moveTo c)

/-- Reads the colon of a value. If a key may have begun before it, that was a key. In a list in flow
form a colon makes a mapping of one entry. -/
def readValue (s : Scanner) : Option Scanner := do
  let start := s.cursor
  let k := s.keyStart
  let pair := !s.pairs.isEmpty && !s.inFlowMapping
  let s := if pair then { s with pairs := true :: s.pairs.drop 1 } else s
  let s ← s.passColon
  if k.possible then
    if pair && k.line < start.line then none
    else
      let s := s.insert k.token .key
      let s := if pair then s.insert k.token .flowMapping else s
      let s := (s.openColumn k.column (some k.token) .blockMapping).openNextColumn
      let s := s.setKeyStart { s.keyStart with possible := false }
      return { s with keyAllowed := false }.push .value
  else
    let s := if pair then s.push .flowMapping else s
    if !s.inFlow && !s.keyAllowed then none
    else
      let s := if s.inFlow then s else s.openColumn start.column none .blockMapping
      let s := s.openNextColumn
      return { s with keyAllowed := !s.inFlow }.push .value

/-! ## Scalars -/

/-- Reads a name or an alias. -/
def readAnchor (s : Scanner) : Option Scanner := do
  let column := s.cursor.column
  let named := s.peek = '&'
  let (name, c) ← readName s.cursor
  let s := { s.saveKey with keyAllowed := false }.moveTo c
  return if named then s.pushProperty (.anchor name) column else s.push (.alias name)

/-- Reads a tag. -/
def readTagToken (s : Scanner) : Option Scanner := do
  let column := s.cursor.column
  let ((handle, suffix), c) ← readTag s.cursor
  let s := { s.saveKey with keyAllowed := false }.moveTo c
  if endsWord c.peek || (s.inFlow && isFlowMark c.peek) then
    return s.pushProperty (.tag handle suffix) column
  else none

/-- Reads a scalar of whole lines. -/
def readBlockScalar (folds : Bool) (s : Scanner) : Option Scanner := do
  let (text, s) ← { s.saveKey with keyAllowed := true }.readBlock folds
  return s.push (.scalar false text)

/-- Reads a scalar in quotes and the space after it. -/
def readQuotedScalar (k : Quoted.Kind) (s : Scanner) : Option Scanner := do
  let (text, s) ← { s.saveKey with keyAllowed := false }.readQuoted k
  let s ← s.skipSpace
  return { s with adjacent := s.cursor.index }.push (.scalar false text)

/-- Reads a plain scalar. -/
def readPlainScalar (s : Scanner) : Option Scanner := do
  let (text, s) ← { s.saveKey with keyAllowed := false }.readPlain
  return s.push (.scalar true text)

/-! ## Tokens -/

/-- Reads a token that does not depend on where its line begins. -/
def readToken (s : Scanner) : Option Scanner :=
  let next := s.cursor.peekAt 1
  match s.peek with
  | '[' => s.readFlowStart .flowList
  | '\x7b' => s.readFlowStart .flowMapping
  | ']' => s.readFlowEnd .flowListEnd
  | '\x7d' => s.readFlowEnd .flowMappingEnd
  | ',' => s.readFlowEntry
  | '-' => if endsWord next then s.readBlockEntry else s.readPlainScalar
  | '?' => if endsWord next then s.readKey else s.readPlainScalar
  | ':' =>
    if endsWord next || (s.inFlow && (isFlowMark next || s.cursor.index = s.adjacent)) then
      s.readValue
    else s.readPlainScalar
  | '*' | '&' => s.readAnchor
  | '!' => s.readTagToken
  | '|' => if s.inFlow then s.readPlainScalar else s.readBlockScalar false
  | '>' => if s.inFlow then s.readPlainScalar else s.readBlockScalar true
  | '\'' => s.readQuotedScalar .single
  | '"' => s.readQuotedScalar .double
  | '%' | '@' | '\x60' => none
  | _ => s.readPlainScalar

/-- Reads the next token. -/
def next (s : Scanner) : Option Scanner := do
  let s ← (← s.skipSpace).dropStaleKeys
  let s := s.closeColumns s.cursor.column
  if s.cursor.atEnd then s.readEnd
  else if s.cursor.column = 0 ∧ s.peek = '%' then s.readDirectiveLine
  else if s.cursor.atMarker '-' then s.readDocumentMark .documentStart
  else if s.cursor.atMarker '.' then do
    let s ← (← s.readDocumentMark .documentEnd).skipToContent
    if endsLine s.peek then return s else none
  else if s.cursor.column < s.indent then none
  else s.readToken

/-- Reads tokens up to the end of the text. -/
def readAll : Nat → Scanner → Option Scanner
  | 0, _ => none
  | steps + 1, s =>
    match s.next with
    | none => none
    | some t => if t.tokens.getLast? = some .streamEnd then some t else readAll steps t

end Scanner

/-- The tokens of a text. -/
def tokensOf (cs : List Char) : Option (List Token) :=
  let cs := cs.takeWhile (· ≠ '\x00')
  (Scanner.readAll (cs.length + 2) { cursor := { rest := cs } }).map (·.tokens)

end Yaml
end EventSourcing
