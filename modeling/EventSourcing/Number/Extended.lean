import EventSourcing.Number.Shortest

/-!
# Floating-point numbers with infinities

A text of decimal digits stands for the floating-point number nearest to it, an infinity if it is
too large. `inf`, `infinity` and `nan`, in letters of either case, stand for the numbers that digits
cannot write. Writing is positional, with the fewest digits that read back and no mark in a whole
number.
-/

namespace EventSourcing

/-- A floating-point number, finite or not. -/
inductive Extended where
  | finite (value : Binary64)
  | infinite (negative : Bool)
  | nan
  deriving DecidableEq, Repr

/-- A letter of the alphabet in its small form; other characters stay as they are. -/
def smallLetter (c : Char) : Char := if 'A' ≤ c ∧ c ≤ 'Z' then Char.ofNat (c.toNat + 32) else c

/-- The number that decimal digits spell. -/
def numberOfDigits (digits : List Char) : Nat :=
  digits.foldl (fun n c => 10 * n + (c.toNat - '0'.toNat)) 0

/-- An integer of decimal digits, with a sign before them or not. -/
def integerOfChars? (cs : List Char) : Option Int :=
  let (negative, digits) :=
    match cs with
    | '-' :: r => (true, r)
    | '+' :: r => (false, r)
    | r => (false, r)
  if digits.isEmpty || !digits.all Char.isDigit then none
  else
    let n : Int := numberOfDigits digits
    some (if negative then -n else n)

namespace Extended

/-- `± digits * 10 ^ exponent`. Numbers that are far out of range are not computed. -/
def ofScaled (negative : Bool) (digits : Nat) (exponent : Int) : Extended :=
  let size := (decimalLength digits : Int) + exponent
  if digits = 0 ∨ size < -400 then .finite (.zero negative)
  else if 400 < size then .infinite negative
  else
    let scaled :=
      if exponent < 0 then Binary64.ofRatio? negative digits (Nat.pow 10 exponent.natAbs)
      else Binary64.ofRatio? negative (digits * Nat.pow 10 exponent.natAbs) 1
    match scaled with
    | some x => .finite x
    | none => .infinite negative

/-- The exponent that follows the digits, if anything does. -/
def exponentOfChars? : List Char → Option Int
  | [] => some 0
  | 'e' :: r => integerOfChars? r
  | 'E' :: r => integerOfChars? r
  | _ => none

/-- A number of digits with at most one point among them and perhaps an exponent. -/
def ofUnsigned? (negative : Bool) (cs : List Char) : Option Extended :=
  let whole := cs.takeWhile Char.isDigit
  let rest := cs.dropWhile Char.isDigit
  let (fraction, rest) :=
    match rest with
    | '.' :: r => (r.takeWhile Char.isDigit, r.dropWhile Char.isDigit)
    | r => ([], r)
  if whole.isEmpty && fraction.isEmpty then none
  else
    (exponentOfChars? rest).map fun e =>
      ofScaled negative (numberOfDigits (whole ++ fraction)) (e - fraction.length)

/-- The number that a text spells. -/
def ofChars? (cs : List Char) : Option Extended :=
  let (negative, cs) :=
    match cs with
    | '-' :: r => (true, r)
    | '+' :: r => (false, r)
    | r => (false, r)
  match cs.map smallLetter with
  | ['n', 'a', 'n'] => some .nan
  | ['i', 'n', 'f'] => some (.infinite negative)
  | ['i', 'n', 'f', 'i', 'n', 'i', 't', 'y'] => some (.infinite negative)
  | _ => ofUnsigned? negative cs

/-- The decimal with no exponent, and no point in a whole number. -/
def positional (d : Decimal) : List Char :=
  if d.point ≤ 0 then '0' :: '.' :: List.replicate d.point.natAbs '0' ++ d.digits
  else
    let whole := d.point.toNat
    if d.digits.length ≤ whole then d.digits ++ List.replicate (whole - d.digits.length) '0'
    else d.digits.take whole ++ '.' :: d.digits.drop whole

/-- The text of a number. -/
def text : Extended → String
  | .nan => "NaN"
  | .infinite negative => if negative then "-inf" else "inf"
  | .finite x => String.ofList ((if x.negative then ['-'] else []) ++ positional x.shortest)

/-- The nearest number of 64 bits, halves going up; what is below zero or no number is zero. -/
def toWord : Extended → Nat
  | .nan => 0
  | .infinite negative => if negative then 0 else 18446744073709551615
  | .finite x => min x.roundHalfAway.toNat 18446744073709551615

/-- Whether a number is zero. -/
def isZero : Extended → Bool
  | .finite x => x.isZero
  | _ => false

example : (ofChars? ['2', '.', '5']).map toWord = some 3 := by decide +kernel

example : (ofChars? ['1', 'e', '3']).map text = some "1000" := by decide +kernel

end Extended
end EventSourcing
