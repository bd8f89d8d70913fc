/-!
# Binary floating point of 64 bits

A finite number is a sign, a mantissa and an exponent; its magnitude is `mantissa * 2 ^ exponent`.
Every value made here is canonical: the mantissa has 53 bits unless the exponent is `-1074`, the
smallest one, so equal magnitudes have equal fields.

All arithmetic is exact arithmetic on natural numbers followed by one rounding, to the nearest
representable number and to the even mantissa on a tie (`ofRatio?`). The product and the quotient
of two numbers are therefore correctly rounded by construction.
-/

namespace EventSourcing

/-- A finite binary floating-point number: `± mantissa * 2 ^ exponent`. -/
structure Binary64 where
  negative : Bool
  mantissa : Nat
  exponent : Int
  deriving DecidableEq, Repr

namespace Binary64

/-- The exponent of the smallest numbers. -/
def minExponent : Int := -1074

/-- The largest exponent of a 53-bit mantissa. -/
def maxExponent : Int := 971

def zero (negative : Bool) : Binary64 := ⟨negative, 0, minExponent⟩

def isZero (x : Binary64) : Bool := x.mantissa == 0

def neg (x : Binary64) : Binary64 := { x with negative := !x.negative }

/-- The natural number nearest to `num / den`; a tie goes to the even one. -/
def roundHalfEven (num den : Nat) : Nat :=
  let q := num / den
  let r := num % den
  if 2 * r < den then q
  else if den < 2 * r then q + 1
  else if q % 2 = 0 then q else q + 1

/-- `num / den` divided by `2 ^ e`, as numerator and denominator. -/
def descale (num den : Nat) (e : Int) : Nat × Nat :=
  if e < 0 then (num * Nat.pow 2 e.natAbs, den) else (num, den * Nat.pow 2 e.natAbs)

/-- The exponent that leaves `num / den` a mantissa of 53 bits, or the least exponent. -/
def exponentOf (num den : Nat) : Int :=
  let guess : Int := (Nat.log2 num : Int) - (Nat.log2 den : Int) - 52
  let (n, d) := descale num den guess
  max minExponent (if n < d * Nat.pow 2 52 then guess - 1 else guess)

/-- The number nearest to `num / den`, or nothing when it is too large. -/
def ofRatio? (negative : Bool) (num den : Nat) : Option Binary64 :=
  if num = 0 then some (zero negative)
  else
    let e := exponentOf num den
    let (n, d) := descale num den e
    let m := roundHalfEven n d
    let x : Binary64 :=
      if m = Nat.pow 2 53 then ⟨negative, Nat.pow 2 52, e + 1⟩ else ⟨negative, m, e⟩
    if maxExponent < x.exponent then none else some x

/-- The magnitude as a fraction. -/
def ratio (x : Binary64) : Nat × Nat :=
  if x.exponent < 0 then (x.mantissa, Nat.pow 2 x.exponent.natAbs)
  else (x.mantissa * Nat.pow 2 x.exponent.natAbs, 1)

def ofNat? (n : Nat) : Option Binary64 := ofRatio? false n 1

/-- The correctly rounded product, if it is in range. -/
def mul? (x y : Binary64) : Option Binary64 :=
  let (a, b) := x.ratio
  let (c, d) := y.ratio
  ofRatio? (x.negative != y.negative) (a * c) (b * d)

/-- The correctly rounded quotient by a number that is not zero, if it is in range. -/
def div? (x y : Binary64) : Option Binary64 :=
  let (a, b) := x.ratio
  let (c, d) := y.ratio
  ofRatio? (x.negative != y.negative) (a * d) (b * c)

/-- The number nearest to `10 ^ k`. -/
def powerOfTen? (k : Nat) : Option Binary64 := ofRatio? false (Nat.pow 10 k) 1

/-- The integer nearest to the number; halves go away from zero. -/
def roundHalfAway (x : Binary64) : Int :=
  let (a, b) := x.ratio
  let m : Int := ((2 * a + b) / (2 * b) : Nat)
  if x.negative then -m else m

theorem neg_neg (x : Binary64) : x.neg.neg = x := by simp [neg]

example : ofRatio? false 1 10 = some ⟨false, 7205759403792794, -56⟩ := by decide +kernel

example : ofNat? (Nat.pow 2 53 + 1) = some ⟨false, Nat.pow 2 52, 1⟩ := by decide +kernel

end Binary64

end EventSourcing
