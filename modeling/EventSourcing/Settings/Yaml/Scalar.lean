import EventSourcing.Settings.Value

/-!
# Scalars of settings

A plain scalar is a number, a truth value or null if it looks like one, and text if it does not. A
tag of one of the basic types fixes what it is read as; a scalar that is not of that type then
stands for nothing, which is not the same as null.
-/

namespace EventSourcing
namespace Yaml

/-- What a scalar stands for. -/
inductive Scalar where
  | null
  | bool (value : Bool)
  | int (value : Int)
  /-- A number with a fraction or too large for an integer, as it is written. -/
  | real (text : String)
  | text (value : String)
  deriving DecidableEq, Repr

/-- An integer of 64 bits with a sign. -/
def int64? (n : Int) : Option Int :=
  if -9223372036854775808 ≤ n ∧ n < 9223372036854775808 then some n else none

/-- The value of a digit below a base of at most sixteen. -/
def digit? (base : Nat) (c : Char) : Option Nat :=
  let c := smallLetter c
  let n := if c.isDigit then c.toNat - 48 else if 'a' ≤ c ∧ c ≤ 'f' then c.toNat - 87 else base
  if n < base then some n else none

/-- An integer of digits to a base, with a sign or not. -/
def inBase? (base : Nat) (cs : List Char) : Option Int :=
  let (negative, digits) :=
    match cs with
    | '-' :: r => (true, r)
    | '+' :: r => (false, r)
    | r => (false, r)
  if digits.isEmpty then none
  else
    (digits.mapM (digit? base)).bind fun ds =>
      let n : Nat := ds.foldl (fun n d => base * n + d) 0
      int64? (if negative then -(n : Int) else n)

/-- An integer of decimal digits. -/
def decimal? (cs : List Char) : Option Int := (integerOfChars? cs).bind int64?

/-- The integer that a plain scalar stands for, if it does. -/
def integer? : List Char → Option Int
  | '0' :: 'x' :: r => inBase? 16 r
  | '0' :: 'o' :: r => inBase? 8 r
  | '+' :: r => decimal? r
  | cs => decimal? cs

/-- Whether a plain scalar is a number with a fraction, or a name of one that is not finite. -/
def isReal (cs : List Char) : Bool :=
  let unsigned :=
    match cs with
    | '-' :: r => r
    | '+' :: r => r
    | r => r
  unsigned ∈ [".inf".toList, ".Inf".toList, ".INF".toList]
    || cs ∈ [".nan".toList, ".NAN".toList]
    || (Extended.ofChars? cs).isSome

namespace Scalar

/-- What a plain scalar stands for. -/
def ofPlain (cs : List Char) : Scalar :=
  match String.ofList cs with
  | "~" | "null" => .null
  | "true" => .bool true
  | "false" => .bool false
  | s =>
    match integer? cs with
    | some n => .int n
    | none => if isReal cs then .real s else .text s

/-- What a plain scalar with the tag of a basic type stands for, if it is of that type. A tag of
another name leaves it text. -/
def ofBasic? (type : String) (cs : List Char) : Option Scalar :=
  let s := String.ofList cs
  match type with
  | "bool" =>
    if s = "true" then some (.bool true) else if s = "false" then some (.bool false) else none
  | "int" => (decimal? cs).map .int
  | "float" => if isReal cs then some (.real s) else none
  | "null" => if s = "~" ∨ s = "null" then some .null else none
  | _ => some (.text s)

/-- A scalar as a setting. -/
def toSetting? : Scalar → Option Setting
  | .null => some .missing
  | .bool b => some (.bool b)
  | .int n => some (.int n)
  | .real s => (Extended.ofChars? s.toList).map .float
  | .text s => some (.text s)

/-- A scalar as a key; null is none. -/
def key? : Scalar → Option String
  | .null => none
  | .bool b => some (if b then "true" else "false")
  | .int n => some (toString n)
  | .real s => some s
  | .text s => some s

example : ofPlain ['0', 'x', '1', 'f'] = .int 31 := by decide +kernel

example : ofPlain ['I', 'n', 'f'] = .real "Inf" := by decide +kernel

end Scalar
end Yaml
end EventSourcing
