import EventSourcing.Number.Binary64

/-!
# The shortest decimal of a binary number

Every real number in a small interval around a floating-point number rounds to it. `shortest` finds
the decimal with the fewest digits inside that interval, and of those the one nearest to the number.
A grid of `n` significant digits meets the interval exactly if one of the number's two neighbours on
the grid lies in it, so only the two neighbours are tried, for `n = 1, 2, …, 17`.

A decimal is written by `Decimal.text`: positionally while its leading digit stands for a power of
ten from `10 ^ -5` to `10 ^ 15`, with a mark and a signed exponent outside that range. A whole
number keeps `.0`, so the text always reads back as a floating-point number.
-/

namespace EventSourcing

/-- A decimal `0.d₁d₂… * 10 ^ point`, digits most significant first. -/
structure Decimal where
  digits : List Char
  point : Int
  deriving DecidableEq, Repr

/-- The number of decimal digits of `n`, none for zero. -/
def decimalLength (n : Nat) : Nat := if n = 0 then 0 else (Nat.toDigits 10 n).length

namespace Binary64

/-- The reals that round to a number: between two fractions over one denominator, ends included
exactly for an even mantissa. -/
structure Interval where
  low : Nat
  value : Nat
  high : Nat
  den : Nat
  closed : Bool

/-- The interval of the reals that round to `x`. Below the least mantissa of 53 bits the spacing
halves, so the lower end is nearer there. -/
def interval (x : Binary64) : Interval :=
  let below := if x.mantissa = Nat.pow 2 52 ∧ minExponent < x.exponent then 1 else 2
  let e := x.exponent - 2
  let up := if e < 0 then 1 else Nat.pow 2 e.natAbs
  let den := if e < 0 then Nat.pow 2 e.natAbs else 1
  { low := (4 * x.mantissa - below) * up
    value := 4 * x.mantissa * up
    high := (4 * x.mantissa + 2) * up
    den := den
    closed := x.mantissa % 2 = 0 }

/-- Whether `num / den` lies in the interval. -/
def Interval.contains (i : Interval) (num den : Nat) : Bool :=
  let v := num * i.den
  let l := i.low * den
  let h := i.high * den
  if i.closed then l ≤ v && v ≤ h else l < v && v < h

/-- The `point` of a decimal for `num / den`: `10 ^ (p - 1) ≤ num / den < 10 ^ p`. -/
def decimalPoint (num den : Nat) : Int :=
  if den ≤ num then (decimalLength (num / den) : Int)
  else 1 - (decimalLength ((den + num - 1) / num - 1) : Int)

/-- The neighbour of the number on the grid of `n` digits that rounds to it, if there is one. -/
def onGrid? (i : Interval) (point : Int) (n : Nat) : Option Nat :=
  let unit := point - n
  let num := if unit < 0 then 1 else Nat.pow 10 unit.natAbs
  let den := if unit < 0 then Nat.pow 10 unit.natAbs else 1
  let lo := i.value * den / (i.den * num)
  let hi := lo + 1
  let fromLo := i.value * den - lo * num * i.den
  let toHi := hi * num * i.den - i.value * den
  match i.contains (lo * num) den, i.contains (hi * num) den with
  | true, true =>
    some (if fromLo < toHi then lo else if toHi < fromLo then hi else if lo % 2 = 0 then lo else hi)
  | true, false => some lo
  | false, true => some hi
  | false, false => none

/-- The digits of `n` without its trailing zeros. -/
def significantDigits (n : Nat) : List Char :=
  ((Nat.toDigits 10 n).reverse.dropWhile (· = '0')).reverse

/-- The first grid that meets the interval, from `n` digits on. -/
def shortestFrom (i : Interval) (point : Int) : Nat → Nat → Decimal
  | _, 0 => ⟨['0'], 1⟩
  | n, fuel + 1 =>
    match onGrid? i point n with
    | some c => ⟨significantDigits c, point + (decimalLength c : Int) - n⟩
    | none => shortestFrom i point (n + 1) fuel

/-- The shortest decimal that rounds to the magnitude of `x`. -/
def shortest (x : Binary64) : Decimal :=
  if x.isZero then ⟨['0'], 1⟩
  else
    let i := x.interval
    shortestFrom i (decimalPoint i.value i.den) 1 17

end Binary64

/-- The decimal as text: `12.5`, `100.0`, `0.001`, `1e+16`, `1.5e-7`. -/
def Decimal.text (d : Decimal) : List Char :=
  let lead := d.point - 1
  if lead < -5 ∨ 16 ≤ lead then
    let fraction := if d.digits.length ≤ 1 then [] else '.' :: d.digits.drop 1
    let sign := if lead < 0 then '-' else '+'
    d.digits.take 1 ++ fraction ++ 'e' :: sign :: Nat.toDigits 10 lead.natAbs
  else if d.point ≤ 0 then
    '0' :: '.' :: List.replicate d.point.natAbs '0' ++ d.digits
  else
    let whole := d.point.toNat
    if d.digits.length ≤ whole then
      d.digits ++ List.replicate (whole - d.digits.length) '0' ++ ['.', '0']
    else d.digits.take whole ++ '.' :: d.digits.drop whole

/-- The text of a floating-point number. -/
def Binary64.text (x : Binary64) : List Char :=
  (if x.negative then ['-'] else []) ++ x.shortest.text

end EventSourcing
