import EventSourcing.Json.Basic
import EventSourcing.Number.Shortest

/-!
# Writing JSON text

Two layouts: `compact` has no blanks, `indented` puts every item on a line of its own, two blanks in
for each level, and a blank after the colon. Empty arrays and objects are `[]` and `{}` in both.
Only the quote, the backslash and the characters below `U+0020` are escaped, the latter as `\b`,
`\f`, `\n`, `\r`, `\t` or `\u00xx` with small letters.
-/

namespace EventSourcing

/-- How text is laid out. -/
inductive Layout where
  | compact
  | indented
  deriving DecidableEq, Repr

namespace Json

/-- A small hexadecimal digit. -/
def hexDigit (n : Nat) : Char := Char.ofNat (if n < 10 then 48 + n else 87 + n)

/-- A character inside quotes. -/
def escape (c : Char) : List Char :=
  if c = '"' then ['\\', '"']
  else if c = '\\' then ['\\', '\\']
  else if c = '\x08' then ['\\', 'b']
  else if c = '\x0c' then ['\\', 'f']
  else if c = '\n' then ['\\', 'n']
  else if c = '\r' then ['\\', 'r']
  else if c = '\t' then ['\\', 't']
  else if c.toNat < 32 then ['\\', 'u', '0', '0', hexDigit (c.toNat / 16), hexDigit (c.toNat % 16)]
  else [c]

/-- A string in quotes. -/
def quote (s : String) : List Char := '"' :: (s.toList.flatMap escape ++ ['"'])

/-- The digits of an integer. -/
def intText (n : Int) : List Char :=
  if n < 0 then '-' :: Nat.toDigits 10 n.natAbs else Nat.toDigits 10 n.natAbs

/-- A number. -/
def numberText : Number → List Char
  | .int n => intText n
  | .float x => x.text

namespace Layout

/-- What separates an opening bracket or a comma from the next item, `level` levels in. -/
def newline : Layout → Nat → List Char
  | .compact, _ => []
  | .indented, level => '\n' :: List.replicate (2 * level) ' '

/-- What stands between a key and its value. -/
def colon : Layout → List Char
  | .compact => [':']
  | .indented => [':', ' ']

end Layout

mutual

/-- The text of a value that starts `level` levels in. -/
def textAt (layout : Layout) (level : Nat) : Json → List Char
  | .null => ['n', 'u', 'l', 'l']
  | .bool true => ['t', 'r', 'u', 'e']
  | .bool false => ['f', 'a', 'l', 's', 'e']
  | .number n => numberText n
  | .string s => quote s
  | .array [] => ['[', ']']
  | .array (x :: xs) =>
    '[' :: (Layout.newline layout (level + 1) ++ textAt layout (level + 1) x
      ++ itemsText layout (level + 1) xs ++ Layout.newline layout level ++ [']'])
  | .object [] => ['\x7b', '\x7d']
  | .object ((k, x) :: xs) =>
    '\x7b' :: (Layout.newline layout (level + 1) ++ quote k ++ Layout.colon layout
      ++ textAt layout (level + 1) x ++ fieldsText layout (level + 1) xs
      ++ Layout.newline layout level ++ ['\x7d'])

/-- The items after the first one. -/
def itemsText (layout : Layout) (level : Nat) : List Json → List Char
  | [] => []
  | x :: xs =>
    ',' :: (Layout.newline layout level ++ textAt layout level x ++ itemsText layout level xs)

/-- The fields after the first one. -/
def fieldsText (layout : Layout) (level : Nat) : List (String × Json) → List Char
  | [] => []
  | (k, x) :: xs =>
    ',' :: (Layout.newline layout level ++ quote k ++ Layout.colon layout
      ++ textAt layout level x ++ fieldsText layout level xs)

end

/-- The text of a value. -/
def text (layout : Layout) (v : Json) : List Char := textAt layout 0 v

/-- The text of a value without blanks. -/
def compact (v : Json) : String := String.ofList (text .compact v)

example : compact (.array [.null, int (-3), .object [("a", .bool true)]])
    = "[null,-3,\x7b\"a\":true\x7d]" := by rfl

end Json
end EventSourcing
