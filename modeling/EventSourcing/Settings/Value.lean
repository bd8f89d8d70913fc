import EventSourcing.Number.Extended

/-!
# Values of settings

A source of settings gives values of any type; the reader of a setting knows which type it wants and
converts. A number, a truth value and a text convert into each other: a truth value is one or zero,
and `yes`, `on`, `true` and `no`, `off`, `false` are truth values in letters of either case. A
missing value, a list and a table convert into none of them.

Keys of tables are compared without regard to case. `Setting.assign` sets the value of a key: a
table is merged into the table that is there, key by key, and anything else takes its place.
-/

namespace EventSourcing

/-- A value of a setting. -/
inductive Setting where
  | missing
  | bool (value : Bool)
  | int (value : Int)
  | float (value : Extended)
  | text (value : String)
  | list (items : List Setting)
  | table (entries : List (String × Setting))
  deriving Repr, Inhabited

/-- Text in small letters. The names of settings and of their values have only letters of the
alphabet, so other letters need no small form. -/
def lowered (s : String) : String := String.ofList (s.toList.map smallLetter)

namespace Setting

/-- The truth value that a word names. -/
def truthOf? (s : String) : Option Bool :=
  match lowered s with
  | "true" | "on" | "yes" => some true
  | "false" | "off" | "no" => some false
  | _ => none

/-- A natural number up to a bound. -/
def word? (bound : Nat) (v : Setting) : Option Nat :=
  let n? : Option Int :=
    match v with
    | .bool b => some (if b then 1 else 0)
    | .int n => some n
    | .float x => some x.toWord
    | .text s =>
      match truthOf? s with
      | some b => some (if b then 1 else 0)
      | none => if s.toList.head? = some '-' then none else integerOfChars? s.toList
    | _ => none
  n?.bind fun n => if 0 ≤ n ∧ n ≤ bound then some n.toNat else none

/-- A truth value; any number but zero is true. -/
def bool? : Setting → Option Bool
  | .bool b => some b
  | .int n => some (n ≠ 0)
  | .float x => some !x.isZero
  | .text s =>
    match truthOf? s with
    | some b => some b
    | none => if s = "1" then some true else if s = "0" then some false else none
  | _ => none

/-- A text; numbers and truth values are written out. -/
def text? : Setting → Option String
  | .text s => some s
  | .bool b => some (if b then "true" else "false")
  | .int n => some (toString n)
  | .float x => some x.text
  | _ => none

/-- The value of a key among entries. -/
def find? (key : String) (entries : List (String × Setting)) : Option Setting := entries.lookup key

/-- Replaces the value of a key among entries. -/
def replace (key : String) (value : Setting) (entries : List (String × Setting)) :
    List (String × Setting) :=
  entries.filter (fun e => e.1 ≠ key) ++ [(key, value)]

/-- The entries of a table; other values have none. -/
def entriesOf : Setting → List (String × Setting)
  | .table entries => entries
  | _ => []

mutual

/-- Sets the value of a key. -/
def assign : (value : Setting) → (key : String) → (root : Setting) → Setting
  | .table incoming, key, root =>
    let entries := root.entriesOf
    let target := (find? (lowered key) entries).getD (.table [])
    .table (replace (lowered key) (assignAll incoming target) entries)
  | .missing, key, root => .table (replace (lowered key) .missing root.entriesOf)
  | .bool b, key, root => .table (replace (lowered key) (.bool b) root.entriesOf)
  | .int n, key, root => .table (replace (lowered key) (.int n) root.entriesOf)
  | .float x, key, root => .table (replace (lowered key) (.float x) root.entriesOf)
  | .text s, key, root => .table (replace (lowered key) (.text s) root.entriesOf)
  | .list items, key, root => .table (replace (lowered key) (.list items) root.entriesOf)

/-- Sets the values of several keys, one after the other. -/
def assignAll : (incoming : List (String × Setting)) → (root : Setting) → Setting
  | [], root => root
  | (key, value) :: rest, root => assignAll rest (assign value key root)

end

/-- The values of a record's fields: those of a table by their keys, those of a list by position. -/
def fields? (keys : List String) : Setting → Option (List (Option Setting))
  | .table entries => some (keys.map fun k => find? k entries)
  | .list items => some ((List.range keys.length).map (items[·]?))
  | _ => none

end Setting
end EventSourcing
