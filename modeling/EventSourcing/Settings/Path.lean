import EventSourcing.Settings.Value

/-!
# Paths of keys

The key of a setting may be a path: keys with points between them, each perhaps followed by places
in a list (`polling[0]`, `storage.sqlite.path`). Setting a value at the end of a path makes the
tables and lists on the way; whatever else is in the way is replaced. A place behind the end of a
list fills it up with missing values, a negative one counts from its end. A key that is no path
stands for itself.
-/

namespace EventSourcing

/-- A step of a path. -/
inductive PathStep where
  | key (name : String)
  | place (index : Int)
  deriving DecidableEq, Repr

namespace PathStep

/-- Whether a character may stand in a key of a path. -/
def isKeyChar (c : Char) : Bool := c.isAlphanum || c = ' ' || c = '_' || c = '-'

/-- The key at the beginning of a text. -/
def splitKey (cs : List Char) : List Char × List Char :=
  (cs.takeWhile isKeyChar, cs.dropWhile isKeyChar)

/-- Whether a character may stand around a place. -/
def isSpace (c : Char) : Bool := c ∈ [' ', '\t', '\n', '\r']

/-- The place at the beginning of a text, up to its closing bracket. -/
def splitPlace? (cs : List Char) : Option (Int × List Char) :=
  let cs := cs.dropWhile isSpace
  let (sign, cs) := if cs.head? = some '-' then (['-'], cs.drop 1) else ([], cs)
  match (cs.dropWhile Char.isDigit).dropWhile isSpace with
  | ']' :: rest =>
    match integerOfChars? (sign ++ cs.takeWhile Char.isDigit) with
    | some n => if -9223372036854775808 ≤ n ∧ n < 9223372036854775808 then some (n, rest) else none
    | none => none
  | _ => none

/-- The steps after the first key of a path. -/
def rest? : Nat → List Char → Option (List PathStep)
  | _, [] => some []
  | 0, _ :: _ => none
  | n + 1, '.' :: cs =>
    let (name, cs) := splitKey cs
    if name.isEmpty then none else (rest? n cs).map (.key (String.ofList name) :: ·)
  | n + 1, '[' :: cs =>
    match splitPlace? cs with
    | none => none
    | some (i, cs) => (rest? n cs).map (.place i :: ·)
  | _ + 1, _ :: _ => none

/-- The steps of a path; a text that is no path is one key. -/
def ofString (key : String) : List PathStep :=
  let (name, cs) := splitKey key.toList
  if name.isEmpty then [.key key]
  else
    match rest? cs.length cs with
    | some steps => .key (String.ofList name) :: steps
    | none => [.key key]

example : ofString "a.b[ 1 ]" = [.key "a", .key "b", .place 1] := by decide +kernel

example : ofString "a." = [.key "a."] := by decide +kernel

end PathStep

namespace Setting

/-- The items of a list; other values have none. -/
def itemsOf : Setting → List Setting
  | .list items => items
  | _ => []

/-- The place of an index in a list, which counts from the end if it is negative. -/
def placeOf? (index : Int) (items : List Setting) : Option Nat :=
  if 0 ≤ index then some index.toNat
  else if index.natAbs ≤ items.length then some (items.length - index.natAbs)
  else none

/-- Replaces the item at a place, filling the list up to it. -/
def setItem (n : Nat) (value : Setting) (items : List Setting) : List Setting :=
  (items ++ List.replicate (n + 1 - items.length) Setting.missing).set n value

/-- Sets the value at the end of a path; what is in the way is replaced. -/
def assignPath (value : Setting) : List PathStep → Setting → Setting
  | [], root => root
  | [.key name], root => assign value name root
  | .key name :: rest, root =>
    let child := (find? (lowered name) root.entriesOf).getD .missing
    .table (replace (lowered name) (assignPath value rest child) root.entriesOf)
  | .place index :: rest, root =>
    match placeOf? index root.itemsOf with
    | none => root
    | some n =>
      let child := (root.itemsOf[n]?).getD .missing
      let item := if rest.isEmpty then value else assignPath value rest child
      .list (setItem n item root.itemsOf)

end Setting
end EventSourcing
