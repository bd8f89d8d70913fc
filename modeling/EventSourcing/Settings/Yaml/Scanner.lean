import EventSourcing.Settings.Yaml.Cursor

/-!
# Tokens and the state of their reader

A text is read as a sequence of tokens. Block form has no marks for where a mapping or a list begins
and ends, so the reader keeps the columns that are open (`indents`) and makes up the marks itself. A
key is only known by the colon after it, so the reader also keeps where a key may have begun
(`keys`), and puts the marks before the key once it has seen the colon (`insert`).

After a key the least column of what belongs to it is one more than that of the key; such a column
is open too, but nothing ends with it (`Indent.block`).
-/

namespace EventSourcing
namespace Yaml

/-- A mark or a scalar of a text. -/
inductive Token where
  | versionDirective
  | tagDirective (handle start : String)
  | documentStart
  | documentEnd
  | streamEnd
  | blockList
  | blockMapping
  | blockEnd
  | flowList
  | flowListEnd
  | flowMapping
  | flowMappingEnd
  | blockEntry
  | flowEntry
  | key
  | value
  | alias (name : String)
  | anchor (name : String)
  | tag (handle suffix : String)
  | scalar (plain : Bool) (text : List Char)
  deriving DecidableEq, Repr

/-- Where a key may have begun. -/
structure KeyStart where
  possible : Bool := false
  /-- Whether nothing but a key can stand there. -/
  required : Bool := false
  /-- How many tokens there were before. -/
  token : Nat := 0
  index : Nat := 0
  line : Nat := 0
  column : Nat := 0
  deriving DecidableEq, Repr

/-- A column that was open before another one was. -/
structure Indent where
  column : Int
  /-- Whether the end of the later column is marked. -/
  block : Bool
  deriving DecidableEq, Repr

/-- The state of the reader of tokens. Of `keys`, `indents` and `pairs` the innermost is first. -/
structure Scanner where
  cursor : Cursor
  tokens : List Token := []
  /-- The column of the last token, if it is a name or a tag. -/
  propertyColumn : Option Nat := none
  /-- Whether a key may begin here. -/
  keyAllowed : Bool := true
  keys : List KeyStart := [{}]
  indent : Int := -1
  indents : List Indent := []
  /-- How many lists and mappings in flow form are open. -/
  flowLevel : Nat := 0
  /-- Whether colons belong to a mapping that was begun by its brace or a question mark. -/
  inFlowMapping : Bool := false
  /-- For each open list in flow form, whether a mapping without braces is open in it. -/
  pairs : List Bool := []
  /-- Where a value may follow its colon directly. -/
  adjacent : Nat := 0
  deriving Repr

namespace Scanner

def peek (s : Scanner) : Char := s.cursor.peek

def inFlow (s : Scanner) : Bool := 0 < s.flowLevel

/-- Adds a token. -/
def push (t : Token) (s : Scanner) : Scanner :=
  { s with tokens := s.tokens ++ [t], propertyColumn := none }

/-- Adds a name or a tag that stands at a column. -/
def pushProperty (t : Token) (column : Nat) (s : Scanner) : Scanner :=
  { s.push t with propertyColumn := some column }

/-- Puts a token before others. -/
def insert (n : Nat) (t : Token) (s : Scanner) : Scanner :=
  { s with tokens := s.tokens.take n ++ t :: s.tokens.drop n }

/-! ## Columns -/

/-- Whether the innermost column has a marked end. -/
def blockOpen (s : Scanner) : Bool :=
  match s.indents with
  | [] => false
  | i :: _ => i.block

/-- Leaves the innermost column if its end has no mark. -/
def leaveOpenColumn (s : Scanner) : Scanner :=
  match s.indents with
  | [] => s
  | i :: r => if i.block then s else { s with indent := i.column, indents := r }

/-- Opens a column, if it is a new one; `number` is the place of its token. -/
def openColumn (column : Nat) (number : Option Nat) (t : Token) (s : Scanner) : Scanner :=
  if s.inFlow then s
  else
    let s := if s.indent ≤ column then s.leaveOpenColumn else s
    if s.indent < column then
      let s := { s with indents := ⟨s.indent, true⟩ :: s.indents, indent := column }
      match number with
      | some n => s.insert n t
      | none => s.push t
    else s

/-- Ends the columns after a column, innermost first. -/
def closeFrom (column : Int) (indent : Int) : List Indent → List Token →
    Int × List Indent × List Token
  | [], ended => (indent, [], ended)
  | i :: r, ended =>
    if column < indent then
      closeFrom column i.column r (if i.block then ended ++ [.blockEnd] else ended)
    else (indent, i :: r, ended)

/-- Ends the columns after a column. -/
def closeColumns (column : Int) (s : Scanner) : Scanner :=
  if s.inFlow then s
  else
    let (indent, indents, ended) := closeFrom column s.indent s.indents []
    let s := { s with indent := indent, indents := indents }
    ended.foldl (fun s t => s.push t) s

/-- Opens the column after the innermost one for what belongs to a key. -/
def openNextColumn (s : Scanner) : Scanner :=
  if !s.inFlow && s.blockOpen then
    { s with indents := ⟨s.indent, false⟩ :: s.indents, indent := s.indent + 1 }
  else s

/-- Leaves columns without a marked end. -/
def leaveFrom (indent : Int) : List Indent → Int × List Indent
  | [] => (indent, [])
  | i :: r => if i.block then (indent, i :: r) else leaveFrom i.column r

/-- Leaves the columns that were opened for what belongs to a key. -/
def leaveOpenColumns (s : Scanner) : Scanner :=
  let (indent, indents) := leaveFrom s.indent s.indents
  { s with indent := indent, indents := indents }

/-! ## Keys -/

/-- The innermost place where a key may have begun. -/
def keyStart (s : Scanner) : KeyStart := s.keys.headD {}

/-- Replaces the innermost place where a key may have begun. -/
def setKeyStart (k : KeyStart) (s : Scanner) : Scanner := { s with keys := k :: s.keys.drop 1 }

/-- Keeps that a key may begin here. -/
def saveKey (s : Scanner) : Scanner :=
  if s.keyAllowed then
    s.setKeyStart {
      possible := true
      required := !s.inFlow && s.indent = s.cursor.column && s.blockOpen
      token := s.tokens.length
      index := s.cursor.index
      line := s.cursor.line
      column := s.cursor.column }
  else s

/-- Gives up the key that may have begun. -/
def dropKey (s : Scanner) : Option Scanner :=
  let k := s.keyStart
  if k.possible && k.required then none else some (s.setKeyStart { k with possible := false })

/-- Whether what may have begun here can no longer be a key. -/
def isStale (s : Scanner) (k : KeyStart) : Bool :=
  k.possible && (k.line < s.cursor.line || k.index + 1024 < s.cursor.index)

/-- Gives up keys that would go over several lines or be too long; in flow form they may. -/
def dropStaleKeys (s : Scanner) : Option Scanner :=
  if s.inFlow then some s
  else if s.keys.any fun k => s.isStale k && k.required then none
  else
    let kept (k : KeyStart) : KeyStart := if s.isStale k then { k with possible := false } else k
    some { s with keys := s.keys.map kept }

/-! ## Flow form -/

/-- The greatest number of lists and mappings in flow form within each other. -/
def maxFlowLevel : Nat := 255

/-- Goes into a list or a mapping in flow form. -/
def enterFlow (s : Scanner) : Option Scanner :=
  if s.flowLevel < maxFlowLevel then
    some { s with keys := {} :: s.keys, flowLevel := s.flowLevel + 1 }
  else none

/-- Comes out of a list or a mapping in flow form. -/
def leaveFlow (s : Scanner) : Scanner :=
  if s.inFlow then { s with keys := s.keys.drop 1, flowLevel := s.flowLevel - 1 } else s

/-- Ends the mapping without braces that is open in the innermost list. -/
def endPair (s : Scanner) : Scanner :=
  match s.pairs with
  | true :: r => { s.push .flowMappingEnd with pairs := false :: r, inFlowMapping := false }
  | _ => s

/-! ## Space between tokens -/

/-- Passes blanks, breaks and comments. Tabs before the column that is open are no indentation. -/
def skipSpaceWithin : Nat → Scanner → Option Scanner
  | 0, s => some s
  | steps + 1, s =>
    let c := s.cursor
    if c.peek = '\t' && !s.indents.isEmpty && c.fresh && c.column < s.indent then
      match c.skipToContent with
      | none => none
      | some (_, c) =>
        if endsLine c.peek then skipSpaceWithin steps { s with cursor := c } else none
    else if isBlank c.peek then skipSpaceWithin steps { s with cursor := c.skip 1 }
    else if isBreak c.peek then
      skipSpaceWithin steps
        { s with cursor := c.nextLine, keyAllowed := s.keyAllowed || !s.inFlow }
    else if c.peek = '#' then skipSpaceWithin steps { s with cursor := c.passLine }
    else some s

/-- Passes everything up to the next token. -/
def skipSpace (s : Scanner) : Option Scanner := skipSpaceWithin (s.cursor.rest.length + 1) s

/-- Passes the blanks and the comment after a token. -/
def skipToContent (s : Scanner) : Option Scanner :=
  s.cursor.skipToContent.map fun v => { s with cursor := v.2 }

end Scanner
end Yaml
end EventSourcing
