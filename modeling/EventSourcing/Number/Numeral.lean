import EventSourcing.Number.Extended

/-!
# Numbers of a column

A column of integers takes any text that spells a number: as an integer if the number is one of 64
bits, as a floating-point number if it is not. Spaces around the number are left out, and so is the
sign `+`. Text that does not spell a number stays text; in a subtraction the number that it begins
with counts, zero if it begins with none.

Integers and floating-point numbers are ordered by their exact values.
-/

namespace EventSourcing

/-- A number of a column. -/
inductive Numeral where
  | integer (value : Int)
  | real (value : Extended)
  deriving DecidableEq, Repr

/-- A finite number as a fraction. -/
def Binary64.fraction (x : Binary64) : Int × Nat :=
  let (a, b) := x.ratio
  (if x.negative then -a else a, b)

namespace Extended

/-- The floating-point number nearest to a fraction. -/
def ofFraction (num : Int) (den : Nat) : Extended :=
  match Binary64.ofRatio? (num < 0) num.natAbs den with
  | some x => .finite x
  | none => .infinite (num < 0)

/-- The difference of two numbers; two infinities of one sign have none. -/
def sub? : Extended → Extended → Option Extended
  | .finite x, .finite y =>
    let (a, b) := x.fraction
    let (c, d) := y.fraction
    some (ofFraction (a * d - c * b) (b * d))
  | .infinite p, .infinite q => if p = q then none else some (.infinite p)
  | .infinite p, .finite _ => some (.infinite p)
  | .finite _, .infinite q => some (.infinite !q)
  | _, _ => none

end Extended

/-- Whether an integer has 64 bits. -/
def fitsColumn (n : Int) : Bool := -9223372036854775808 ≤ n && n < 9223372036854775808

namespace Numeral

/-- A number as a fraction, if it is finite. -/
def fraction? : Numeral → Option (Int × Nat)
  | .integer n => some (n, 1)
  | .real (.finite x) => some x.fraction
  | .real _ => none

/-- What is below the finite numbers, the finite numbers, and what is above them. -/
def rank : Numeral → Nat
  | .real (.infinite false) => 2
  | .real (.infinite true) => 0
  | .real .nan => 0
  | _ => 1

/-- The order of two numbers. -/
def order (a b : Numeral) : Ordering :=
  match a.fraction?, b.fraction? with
  | some (m, c), some (n, d) => compare (m * d) (n * c)
  | _, _ => compare a.rank b.rank

/-- The floating-point number nearest to a number. -/
def toReal : Numeral → Extended
  | .integer n => .ofFraction n 1
  | .real x => x

/-- The difference of two numbers: an integer if both are and it has 64 bits. -/
def sub? (a b : Numeral) : Option Numeral :=
  let difference := (a.toReal.sub? b.toReal).map .real
  match a, b with
  | .integer m, .integer n => if fitsColumn (m - n) then some (.integer (m - n)) else difference
  | _, _ => difference

/-- The parts of a number at the beginning of a text. -/
structure Parts where
  negative : Bool
  whole : List Char
  /-- The digits after a point, if there is a point. -/
  fraction : Option (List Char)
  /-- The sign and the digits after `e`, if there is an `e`. -/
  exponent : Option (Bool × List Char)
  /-- What comes after the number. -/
  rest : List Char
  deriving DecidableEq, Repr

/-- Whether a character is a space around numbers. -/
def isBlank (c : Char) : Bool := c = ' ' || ('\t' ≤ c && c ≤ '\r')

/-- A sign, if there is one, and what follows it. -/
def splitSign : List Char → Bool × List Char
  | '-' :: cs => (true, cs)
  | '+' :: cs => (false, cs)
  | cs => (false, cs)

/-- The digits after a point. -/
def splitFraction : List Char → Option (List Char) × List Char
  | '.' :: cs => (some (cs.takeWhile Char.isDigit), cs.dropWhile Char.isDigit)
  | cs => (none, cs)

/-- The sign and the digits after `e`. -/
def splitExponent : List Char → Option (Bool × List Char) × List Char
  | [] => (none, [])
  | c :: cs =>
    if c = 'e' ∨ c = 'E' then
      let (negative, cs) := splitSign cs
      (some (negative, cs.takeWhile Char.isDigit), cs.dropWhile Char.isDigit)
    else (none, c :: cs)

/-- The number at the beginning of a text, taken apart. -/
def split (cs : List Char) : Parts :=
  let (negative, cs) := splitSign (cs.dropWhile isBlank)
  let (fraction, rest) := splitFraction (cs.dropWhile Char.isDigit)
  let (exponent, rest) := splitExponent rest
  { negative, whole := cs.takeWhile Char.isDigit, fraction, exponent
    rest := rest.dropWhile isBlank }

namespace Parts

/-- The digits before and after the point. -/
def digits (p : Parts) : List Char := p.whole ++ p.fraction.getD []

/-- Whether there is no `e` without digits. -/
def exponentComplete (p : Parts) : Bool := p.exponent.all fun e => !e.2.isEmpty

/-- Whether the text is a number and nothing else. -/
def complete (p : Parts) : Bool := !p.digits.isEmpty && p.exponentComplete && p.rest.isEmpty

/-- The power of ten that `e` asks for. -/
def scale (p : Parts) : Int :=
  match p.exponent with
  | none => 0
  | some (negative, ds) => if negative then -numberOfDigits ds else numberOfDigits ds

/-- The number as a floating-point number. -/
def real (p : Parts) : Extended :=
  .ofScaled p.negative (numberOfDigits p.digits) (p.scale - (p.fraction.getD []).length)

/-- The digits before the point as an integer. -/
def integer (p : Parts) : Int :=
  if p.negative then -numberOfDigits p.whole else numberOfDigits p.whole

/-- Digits without a point and an exponent: an integer if it has 64 bits. -/
def wholeNumber (p : Parts) : Numeral :=
  if fitsColumn p.integer then .integer p.integer
  else .real (.ofScaled p.negative (numberOfDigits p.whole) 0)

end Parts

/-- A floating-point number that is an integer between the least and the greatest one of 64 bits
is that integer. -/
def ofReal (x : Extended) : Numeral :=
  match (Numeral.real x).fraction? with
  | some (n, d) =>
    if n % d = 0 ∧ -9223372036854775808 < n / d ∧ n / d < 9223372036854775808 then
      .integer (n / d)
    else .real x
  | none => .real x

/-- The number that a text spells. -/
def ofChars? (cs : List Char) : Option Numeral :=
  let p := split cs
  if !p.complete then none
  else if p.fraction.isNone && p.exponent.isNone then some p.wholeNumber
  else some (ofReal p.real)

/-- The number that a text begins with, zero if it begins with none. -/
def leading (cs : List Char) : Numeral :=
  let p := split cs
  if p.digits.isEmpty then .integer 0
  else if p.fraction.isSome || (p.exponent.isSome && p.exponentComplete) then .real p.real
  else p.wholeNumber

example : ofChars? [' ', '+', '5', '.', '0', ' '] = some (.integer 5) := by decide +kernel

example : ofChars? ['1', '_', '0'] = none := by decide +kernel

example : leading ['1', '_', '0'] = .integer 1 := by decide +kernel

end Numeral
end EventSourcing
