import EventSourcing.Settings.Yaml.Scalar
import EventSourcing.Settings.Yaml.Scanner

/-!
# Text in quotes

Text in single quotes has one escape, two quotes for one; text in double quotes has the escapes that
begin with a backslash. Where the text goes on over several lines, the blanks around a break are
left out, one break becomes a space, and of several the first is left out. An escaped break is left
out with the blanks after it. Every line has to reach the column that is open.
-/

namespace EventSourcing
namespace Yaml

/-- The character of an escape of one letter. -/
def simpleEscape? : Char → Option Char
  | '0' => some '\x00'
  | 'a' => some '\x07'
  | 'b' => some '\x08'
  | 't' => some '\t'
  | '\t' => some '\t'
  | 'n' => some '\n'
  | 'v' => some '\x0b'
  | 'f' => some '\x0c'
  | 'r' => some '\r'
  | 'e' => some '\x1b'
  | ' ' => some ' '
  | '"' => some '"'
  | '/' => some '/'
  | '\\' => some '\\'
  | 'N' => some '\u0085'
  | '_' => some '\u00a0'
  | 'L' => some '\u2028'
  | 'P' => some '\u2029'
  | _ => none

/-- The number of hexadecimal digits of an escape by number. -/
def escapeLength? : Char → Option Nat
  | 'x' => some 2
  | 'u' => some 4
  | 'U' => some 8
  | _ => none

/-- The character that hexadecimal digits number. -/
def charOfHex? (digits : List Char) : Option Char := do
  let ds ← digits.mapM (digit? 16)
  let n := ds.foldl (fun n d => 16 * n + d) 0
  if n.isValidChar then some (Char.ofNat n) else none

/-- Reads an escape from its backslash on. -/
def readEscape (c : Cursor) : Option (Char × Cursor) :=
  match simpleEscape? (c.peekAt 1) with
  | some e => some (e, c.pass 2)
  | none =>
    match escapeLength? (c.peekAt 1) with
    | none => none
    | some n =>
      let digits := (c.rest.drop 2).take n
      if digits.length < n then none else (charOfHex? digits).map fun e => (e, c.pass (n + 2))

namespace Quoted

/-- The quotes of a text. -/
inductive Kind where
  | single
  | double
  deriving DecidableEq, Repr

def Kind.mark : Kind → Char
  | .single => '\''
  | .double => '"'

/-- Reads up to the next blank, break or closing quote; `acc` is the text so far, reversed. Tells
whether an escaped break has ended the word. -/
def readWord (k : Kind) : Nat → List Char → Cursor → Option (List Char × Bool × Cursor)
  | 0, _, _ => none
  | steps + 1, acc, c =>
    if c.atEnd || endsWord c.peek then some (acc, false, c)
    else
      match k with
      | .single =>
        if c.peek = '\'' then
          if c.peekAt 1 = '\'' then readWord k steps ('\'' :: acc) (c.pass 2)
          else some (acc, false, c)
        else readWord k steps (c.peek :: acc) (c.pass 1)
      | .double =>
        if c.peek = '"' then some (acc, false, c)
        else if c.peek = '\\' then
          if isBreak (c.peekAt 1) then some (acc, true, (c.pass 1).nextLine)
          else (readEscape c).bind fun v => readWord k steps (v.1 :: acc) v.2
        else readWord k steps (c.peek :: acc) (c.pass 1)

/-- The blanks and breaks between two words. -/
structure Gap where
  cursor : Cursor
  blanks : List Char := []
  /-- Whether a break was met that no backslash escapes. -/
  broken : Bool := false
  /-- Whether the gap goes on on a new line. -/
  folded : Bool := false
  /-- The breaks after the first one. -/
  breaks : Nat := 0
  deriving Repr

/-- What a gap becomes. -/
def Gap.text (g : Gap) : List Char :=
  if !g.folded then g.blanks
  else if g.broken && g.breaks = 0 then [' ']
  else List.replicate g.breaks '\n'

/-- Reads a gap. No tab may stand before the open column. -/
def readGap (indent : Int) : Nat → Gap → Option Gap
  | 0, _ => none
  | steps + 1, g =>
    let c := g.cursor
    if isBlank c.peek then
      if !g.folded then
        readGap indent steps { g with cursor := c.skip 1, blanks := g.blanks ++ [c.peek] }
      else if c.peek = '\t' && c.column < indent then none
      else readGap indent steps { g with cursor := c.skip 1 }
    else if isBreak c.peek then
      if g.folded then readGap indent steps { g with cursor := c.nextLine, breaks := g.breaks + 1 }
      else readGap indent steps { g with cursor := c.nextLine, broken := true, folded := true }
    else some g

/-- Reads text up to its closing quote; `acc` is the text so far, reversed. -/
def readFrom (k : Kind) (indent : Int) : Nat → List Char → Cursor → Option (List Char × Cursor)
  | 0, _, _ => none
  | steps + 1, acc, c =>
    if c.atDocumentMark || c.atEnd || c.column < indent then none
    else
      match readWord k (c.rest.length + 1) acc c with
      | none => none
      | some (acc, escaped, c) =>
        if c.peek = k.mark then some (acc.reverse, c.pass 1)
        else
          match readGap indent (c.rest.length + 1) { cursor := c, folded := escaped } with
          | none => none
          | some g => readFrom k indent steps (g.text.reverse ++ acc) g.cursor

end Quoted

/-- Whether text in quotes that began on a line may be followed by what comes next. -/
def Scanner.mayFollowQuoted (line : Nat) (s : Scanner) : Bool :=
  if s.peek = ':' then s.inFlow || s.cursor.line = line
  else endsLine s.peek || (s.inFlow && s.peek ∈ [',', '\x7d', ']'])

/-- Reads text in quotes. -/
def Scanner.readQuoted (k : Quoted.Kind) (s : Scanner) : Option (List Char × Scanner) :=
  let line := s.cursor.line
  match Quoted.readFrom k s.indent (s.cursor.rest.length + 1) [] (s.cursor.pass 1) with
  | none => none
  | some (text, c) =>
    match ({ s with cursor := c } : Scanner).skipToContent with
    | none => none
    | some s => if s.mayFollowQuoted line then some (text, s) else none

end Yaml
end EventSourcing
