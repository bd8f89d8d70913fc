import EventSourcing.Settings.Yaml.Scanner

/-!
# Scalars of whole lines

A scalar after `|` keeps its lines, one after `>` folds them. Its header may say how far the lines
are indented, measured from the column that is open, and how the scalar ends: with one break, with
none (`-`) or with all it has (`+`). Without a number the first line that is not empty sets the
indentation, and no empty line before it may have more spaces. In a folded scalar the break between
two lines becomes a space, unless one of them begins with a blank.
-/

namespace EventSourcing
namespace Yaml
namespace Block

/-- How a scalar of lines ends: with one break, with none, or with all it has. -/
inductive Chomping where
  | clip
  | strip
  | keep
  deriving DecidableEq, Repr

/-- The header of a scalar of lines. -/
structure Header where
  chomping : Chomping := .clip
  /-- How far its lines are indented, zero if the header does not say. -/
  increment : Nat := 0
  deriving DecidableEq, Repr

/-- The way to end that a character asks for. -/
def chomping? : Char → Option Chomping
  | '-' => some .strip
  | '+' => some .keep
  | _ => none

/-- Reads a header after its mark: the number, which is not zero, and the sign in either order. -/
def readHeader (c : Cursor) : Option (Header × Cursor) :=
  let number (d : Char) : Nat := d.toNat - '0'.toNat
  match chomping? c.peek with
  | some k =>
    let d := c.peekAt 1
    if d = '0' then none
    else if d.isDigit then some (⟨k, number d⟩, c.pass 2)
    else some (⟨k, 0⟩, c.pass 1)
  | none =>
    let d := c.peek
    if d = '0' then none
    else if d.isDigit then
      match chomping? (c.peekAt 1) with
      | some k => some (⟨k, number d⟩, c.pass 2)
      | none => some (⟨.clip, number d⟩, c.pass 1)
    else some ({}, c)

/-- Passes empty lines and the indentation of the next one; tells how many lines were passed. -/
def skipEmpty (indent : Nat) : Nat → Nat → Cursor → Nat × Cursor
  | 0, n, c => (n, c)
  | steps + 1, n, c =>
    let c := c.skipSpacesTo indent
    if isBreak c.peek then skipEmpty indent steps (n + 1) c.nextLine else (n, c)

/-- Passes empty lines and the spaces of the first one with content; tells the greatest column that
was reached, and how many lines were passed. -/
def findIndent : Nat → Nat → Nat → Cursor → Nat × Nat × Cursor
  | 0, m, n, c => (m, n, c)
  | steps + 1, m, n, c =>
    let c := c.skipSpaces
    let m := max m c.column
    if isBreak c.peek then findIndent steps m (n + 1) c.nextLine else (m, n, c)

/-- The lines of a scalar so far. -/
structure Lines where
  cursor : Cursor
  /-- The text, reversed. -/
  text : List Char := []
  /-- Whether the last line has ended. -/
  broken : Bool := false
  /-- The empty lines after the last one. -/
  breaks : Nat
  /-- Whether the last line began with a blank. -/
  indented : Bool := false
  deriving Repr

/-- What stands between the last line and a line that begins with a blank or does not. -/
def Lines.joint (folds : Bool) (b : Lines) (indented : Bool) : List Char :=
  if folds && b.broken && !b.indented && !indented then
    if b.breaks = 0 then [' '] else List.replicate b.breaks '\n'
  else (if b.broken then ['\n'] else []) ++ List.replicate b.breaks '\n'

/-- Reads lines of an indentation. -/
def readLines (folds : Bool) (indent : Nat) : Nat → Lines → Lines
  | 0, b => b
  | steps + 1, b =>
    let c := b.cursor
    if c.column ≠ indent || c.atEnd || c.atDocumentMark then b
    else
      let indented := isBlank c.peek
      let line := c.rest.takeWhile (!isBreak ·)
      let text := line.reverse ++ (b.joint folds indented).reverse ++ b.text
      let c := c.skip line.length
      if c.atEnd then { cursor := c, text, breaks := 0, indented }
      else
        let c := c.nextLine
        let (breaks, c) := skipEmpty indent (c.rest.length + 1) 0 c
        readLines folds indent steps { cursor := c, text, broken := true, breaks, indented }

/-- The text of lines. Where the text of settings ends in a line with content, that line counts as
ended. -/
def Lines.chomped (k : Chomping) (indent : Nat) (b : Lines) : List Char :=
  let last := if b.broken then ['\n'] else []
  let atEnd := if b.cursor.atEnd && max indent 1 ≤ b.cursor.column then ['\n'] else []
  b.text.reverse ++
    match k with
    | .strip => []
    | .clip => last ++ atEnd
    | .keep => last ++ atEnd ++ List.replicate b.breaks '\n'

/-- The text of a scalar that has no lines of its own, where the text of settings ends. -/
def emptyText (k : Chomping) (sameLine : Bool) (broken : Bool) (breaks : Nat) : List Char :=
  let first := if broken then ['\n'] else []
  if sameLine then []
  else
    match k with
    | .strip => []
    | .clip => first
    | .keep => if breaks = 0 then first else List.replicate breaks '\n'

end Block

/-- Reads a scalar of whole lines from its mark on. -/
def Scanner.readBlock (folds : Bool) (s : Scanner) : Option (List Char × Scanner) :=
  let line := s.cursor.line
  let s := s.leaveOpenColumns
  match Block.readHeader (s.cursor.pass 1) with
  | none => none
  | some (header, c) =>
    match c.skipToContent with
    | none => none
    | some (_, c) =>
      if !endsLine c.peek then none
      else
        let broken := isBreak c.peek
        let c := c.nextLine
        let steps := c.rest.length + 1
        let (indent, breaks, next) :=
          if header.increment = 0 then
            let (m, n, next) := Block.findIndent steps 0 0 c
            (max m (s.indent + 1).toNat, n, next)
          else
            let indent := (max s.indent 0).toNat + header.increment
            let (n, next) := Block.skipEmpty indent steps 0 c
            (indent, n, next)
        if c.peek = '\t' then none
        else if next.atEnd then
          some (Block.emptyText header.chomping (next.line = line) broken breaks,
            { s with cursor := next })
        else if next.column < indent && s.indent < next.column then none
        else
          let b := Block.readLines folds indent steps { cursor := next, breaks }
          some (b.chomped header.chomping indent, { s with cursor := b.cursor })

end Yaml
end EventSourcing
