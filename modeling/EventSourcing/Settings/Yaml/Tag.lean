import EventSourcing.Settings.Yaml.Scalar
import EventSourcing.Settings.Yaml.Scanner

/-!
# Names, tags and directives

A value may have a name (`&name`), for which an alias (`*name`) stands later, and a tag. A tag is a
handle and a suffix: `!suffix`, `!!suffix`, `!handle!suffix`, or `!<suffix>` as it is. Directives
before a document say what handles stand for. The characters of tags may be written as percent
escapes of their bytes.
-/

namespace EventSourcing
namespace Yaml

/-- Whether a character may stand in an address. -/
def isUriChar (c : Char) : Bool :=
  c.isAlphanum || c ∈ ['-', '#', ';', '/', '?', ':', '@', '&', '=', '+', '$', ',', '_', '.', '!',
    '~', '*', '\'', '(', ')', '[', ']', '%']

/-- Whether a character may stand in the suffix of a tag. -/
def isTagChar (c : Char) : Bool := isUriChar c && !isFlowMark c && c ≠ '!'

/-- Whether a character may stand in a name. -/
def isAnchorChar (c : Char) : Bool := !endsWord c && c ≠ '\ufeff' && !isFlowMark c

/-- The byte of the escape that comes next. -/
def escapedByte? (c : Cursor) : Option Nat :=
  if c.peek = '%' then
    match digit? 16 (c.peekAt 1), digit? 16 (c.peekAt 2) with
    | some x, some y => some (16 * x + y)
    | _, _ => none
  else none

/-- How many bytes follow the first byte of a character. -/
def tailLength? (byte : Nat) : Option Nat :=
  if byte < 0x80 then some 0
  else if byte < 0xC0 then none
  else if byte < 0xE0 then some 1
  else if byte < 0xF0 then some 2
  else if byte < 0xF8 then some 3
  else none

/-- Reads the bytes that follow the first byte of a character. -/
def readTailBytes : Nat → Nat → Cursor → Option (Nat × Cursor)
  | 0, code, c => some (code, c)
  | n + 1, code, c =>
    match escapedByte? c with
    | none => none
    | some b => if b / 0x40 = 2 then readTailBytes n (code * 0x100 + b) (c.pass 3) else none

/-- Reads the escapes of one character, whose number is made of the bytes as they are. -/
def readUriEscape (c : Cursor) : Option (Char × Cursor) := do
  let first ← escapedByte? c
  let (code, c) ← readTailBytes (← tailLength? first) first (c.pass 3)
  if code.isValidChar then some (Char.ofNat code, c) else none

/-- Reads characters of an address; `acc` is the text so far, reversed. -/
def readUri (allowed : Char → Bool) : Nat → List Char → Cursor → Option (String × Cursor)
  | 0, _, _ => none
  | steps + 1, acc, c =>
    if !allowed c.peek then some (String.ofList acc.reverse, c)
    else if c.peek = '%' then
      (readUriEscape c).bind fun v => readUri allowed steps (v.1 :: acc) v.2
    else readUri allowed steps (c.peek :: acc) (c.pass 1)

/-- Reads the handle of a tag, as far as it goes. -/
def readHandle (c : Cursor) : Option (List Char × Cursor) :=
  if c.peek = '!' then
    let name := (c.rest.drop 1).takeWhile isNameChar
    let c := c.pass (name.length + 1)
    if c.peek = '!' then some ('!' :: name ++ ['!'], c.pass 1) else some ('!' :: name, c)
  else none

/-- Whether a handle has a name or is the double one. -/
def isNamedHandle (handle : List Char) : Bool :=
  2 ≤ handle.length && handle.head? = some '!' && handle.getLast? = some '!'

/-- Reads a tag: its handle and its suffix. -/
def readTag (c : Cursor) : Option ((String × String) × Cursor) :=
  let steps := c.rest.length + 1
  if c.peekAt 1 = '<' then do
    let (suffix, c) ← readUri isUriChar steps [] (c.pass 2)
    if c.peek = '>' then return (("", suffix), c.pass 1) else none
  else do
    let (handle, c) ← readHandle c
    if isNamedHandle handle then
      let (suffix, next) ← readUri isTagChar steps [] c
      if next.index = c.index then none else return ((String.ofList handle, suffix), next)
    else
      let (suffix, c) ← readUri isTagChar steps (handle.drop 1).reverse c
      return ((if suffix.isEmpty then ("", "!") else ("!", suffix)), c)

/-- Reads a number of a version. -/
def readVersionNumber (c : Cursor) : Option Cursor :=
  let digits := c.rest.takeWhile Char.isDigit
  if digits.isEmpty || 9 < digits.length then none else some (c.pass digits.length)

/-- Reads the start that a directive gives to a handle. -/
def readTagStart (c : Cursor) : Option (String × Cursor) :=
  let steps := c.rest.length + 1
  if c.peek = '!' then readUri isUriChar steps ['!'] (c.pass 1)
  else if isTagChar c.peek then readUri isUriChar steps [] c
  else none

/-- Reads what follows the name of a directive. -/
def readDirectiveValue (name : String) (c : Cursor) : Option (Token × Cursor) :=
  match name with
  | "YAML" => do
    let c ← readVersionNumber c.skipBlanks
    if c.peek = '.' then return (.versionDirective, ← readVersionNumber (c.pass 1)) else none
  | "TAG" => do
    let (handle, c) ← readHandle c.skipBlanks
    if handle ≠ ['!'] ∧ !isNamedHandle handle then none
    else
      let (start, c) ← readTagStart c.skipBlanks
      if endsWord c.peek then return (.tagDirective (String.ofList handle) start, c) else none
  | _ => some (.tagDirective "" "", c.passLine)

/-- Reads a directive from its percent sign on. -/
def readDirective (c : Cursor) : Option (Token × Cursor) := do
  let c := c.pass 1
  let name := c.rest.takeWhile isNameChar
  let c := c.pass name.length
  if name.isEmpty || !endsWord c.peek then none
  else
    let (token, c) ← readDirectiveValue (String.ofList name) c
    let (_, c) ← c.skipToContent
    if endsLine c.peek then return (token, c.nextLine) else none

/-- Reads a name after its mark. -/
def readName (c : Cursor) : Option (String × Cursor) :=
  let name := (c.rest.drop 1).takeWhile isAnchorChar
  if name.isEmpty then none else some (String.ofList name, c.pass (name.length + 1))

end Yaml
end EventSourcing
