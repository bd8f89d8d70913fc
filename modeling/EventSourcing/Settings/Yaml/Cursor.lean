import EventSourcing.Settings.Value

/-!
# Places in a text

A cursor is a place in a text of settings: what follows it, its line and column, and whether
anything but blanks stands before it on its line. Reading passes over characters one by one or up to
the end of a line; past the end of the text there is only the character zero.
-/

namespace EventSourcing
namespace Yaml

def isBlank (c : Char) : Bool := c = ' ' || c = '\t'

def isBreak (c : Char) : Bool := c = '\n' || c = '\r'

/-- Whether a line or the text ends with a character. -/
def endsLine (c : Char) : Bool := isBreak c || c = '\x00'

/-- Whether a word ends with a character. -/
def endsWord (c : Char) : Bool := isBlank c || endsLine c

/-- Whether a character divides values in flow form. -/
def isFlowMark (c : Char) : Bool := c ∈ [',', '[', ']', '\x7b', '\x7d']

/-- A letter, a digit, a low line or a dash. -/
def isNameChar (c : Char) : Bool := c.isAlphanum || c = '_' || c = '-'

/-- A place in a text. -/
structure Cursor where
  rest : List Char
  index : Nat := 0
  line : Nat := 0
  column : Nat := 0
  /-- Whether only blanks stand before the place on its line. -/
  fresh : Bool := true
  deriving DecidableEq, Repr

namespace Cursor

/-- The character at a distance. -/
def peekAt (n : Nat) (c : Cursor) : Char := c.rest.getD n '\x00'

/-- The next character. -/
def peek (c : Cursor) : Char := c.peekAt 0

def atEnd (c : Cursor) : Bool := c.rest.isEmpty

/-- Passes so many characters of a line that count as blank. -/
def skip (n : Nat) (c : Cursor) : Cursor :=
  { c with rest := c.rest.drop n, index := c.index + n, column := c.column + n }

/-- Passes so many characters of a line. -/
def pass (n : Nat) (c : Cursor) : Cursor := { c.skip n with fresh := false }

/-- Passes a break between lines, if one comes next. -/
def nextLine (c : Cursor) : Cursor :=
  let after (n : Nat) : Cursor :=
    { rest := c.rest.drop n, index := c.index + n, line := c.line + 1 }
  match c.rest with
  | '\r' :: '\n' :: _ => after 2
  | '\r' :: _ => after 1
  | '\n' :: _ => after 1
  | _ => c

/-- Passes the spaces that come next. -/
def skipSpaces (c : Cursor) : Cursor := c.skip (c.rest.takeWhile (· = ' ')).length

/-- Passes the spaces that come next, up to a column. -/
def skipSpacesTo (column : Nat) (c : Cursor) : Cursor :=
  c.skip (min (c.rest.takeWhile (· = ' ')).length (column - c.column))

/-- Passes the blanks that come next. -/
def skipBlanks (c : Cursor) : Cursor := c.skip (c.rest.takeWhile isBlank).length

/-- Passes what is left of a line. -/
def passLine (c : Cursor) : Cursor := c.pass (c.rest.takeWhile (!endsLine ·)).length

/-- Whether three equal characters stand alone at the beginning of a line here. -/
def atMarker (mark : Char) (c : Cursor) : Bool :=
  c.column = 0 && c.peek = mark && c.peekAt 1 = mark && c.peekAt 2 = mark
    && endsWord (c.peekAt 3)

/-- Whether a mark between documents stands here. -/
def atDocumentMark (c : Cursor) : Bool := c.atMarker '-' || c.atMarker '.'

end Cursor

/-- The blanks that were passed. -/
structure Blanks where
  tabs : Bool
  spaces : Bool
  deriving DecidableEq, Repr

/-- Passes blanks and a comment after them; a comment needs a blank before it. -/
def Cursor.skipToContent (c : Cursor) : Option (Blanks × Cursor) :=
  let blanks := c.rest.takeWhile isBlank
  let found : Blanks := ⟨blanks.contains '\t', blanks.contains ' '⟩
  let c := c.skip blanks.length
  if c.peek ≠ '#' then some (found, c)
  else if blanks.isEmpty then none
  else some (found, c.passLine)

example : (Cursor.skipToContent { rest := [' ', '#', '\n'] }).map (·.2.rest) = some ['\n'] := rfl

end Yaml
end EventSourcing
