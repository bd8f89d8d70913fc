import EventSourcing.Number.Numeral
import EventSourcing.Fault
import EventSourcing.Text.Utf8

/-!
# Cells

A cell of a table holds a number, text or bytes, whatever its column was made for. The kind of a
column only says which conversions are tried when something is put into it or compared with it:

| kind of column | text | integer | bytes |
| --- | --- | --- | --- |
| integers | its number, if it spells one | kept | kept |
| text | kept | its digits | kept |
| bytes | kept | kept | kept |

Numbers come before text and text before bytes. A read asks for what it expects, and a cell that
holds something else is a fault of the database.
-/

namespace EventSourcing

/-- What a cell of a table holds. -/
inductive Cell where
  | number (value : Numeral)
  | text (value : String)
  | bytes (value : Bytes)
  deriving DecidableEq, Repr

/-- What a column was made for. -/
inductive ColumnKind where
  | integers
  | text
  | bytes
  deriving DecidableEq, Repr

namespace Cell

def integer (n : Int) : Cell := .number (.integer n)

instance : Inhabited Cell := ⟨.integer 0⟩

/-- The order of two cells. -/
def order : Cell → Cell → Ordering
  | .number a, .number b => a.order b
  | .number _, _ => .lt
  | _, .number _ => .gt
  | .text a, .text b => compare a b
  | .text _, .bytes _ => .lt
  | .bytes _, .text _ => .gt
  | .bytes a, .bytes b => compare a b

/-- Whether two cells are equal as values. -/
def same (a b : Cell) : Bool := a.order b == .eq

/-- Whether one cell comes before another. -/
def before (a b : Cell) : Bool := a.order b == .lt

/-- Whether one cell comes before another or is the same. -/
def atMost (a b : Cell) : Bool := !b.before a

/-- The later of two cells. -/
def later (a b : Cell) : Cell := if a.before b then b else a

/-- What a cell counts as in a subtraction. -/
def numeral : Cell → Numeral
  | .number n => n
  | .text s => .leading s.toList
  | .bytes bs => .leading (bs.map fun b => Char.ofNat b.toNat)

/-- The difference of two cells, if it is a number. -/
def sub? (a b : Cell) : Option Cell := (a.numeral.sub? b.numeral).map .number

/-- The integer of a cell. -/
def asInteger : Cell → Except Fault Int
  | .number (.integer n) => .ok n
  | _ => .error .database

/-- The text of a cell. -/
def asText : Cell → Except Fault String
  | .text s => .ok s
  | _ => .error .database

/-- The bytes of a cell; those of text are its characters. -/
def asBytes : Cell → Except Fault Bytes
  | .bytes bs => .ok bs
  | .text s => .ok (Utf8.ofString s)
  | .number _ => .error .database

end Cell

/-- What a column of a kind makes of a cell. -/
def ColumnKind.convert : ColumnKind → Cell → Cell
  | .integers, .text s =>
    match Numeral.ofChars? s.toList with
    | some n => .number n
    | none => .text s
  | .text, .number (.integer n) => .text (toString n)
  | _, c => c

end EventSourcing
