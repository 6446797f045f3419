/-
# Floating-point numbers of 64 bits

A number of the binary64 format is finite, infinite or not a number; a finite
one is `mantissa * 2 ^ exponent` with a sign. `ofQuotient` rounds a quotient of
natural numbers to the nearest such number, a tie to the even mantissa, and
`ofDecimal` does so for a number in decimal notation.
-/

namespace LuaVeil

/-- A number of the binary64 format. -/
inductive Binary64 where
  /--
  A finite number. In the usual form the mantissa is below `2 ^ 53`, the exponent at least -1074,
  and the mantissa is at least `2 ^ 52` unless the exponent is -1074.
  -/
  | finite (negative : Bool) (mantissa : Nat) (exponent : Int)
  | infinite (negative : Bool)
  | notANumber
  deriving DecidableEq

namespace Binary64

/-- The smallest exponent of a finite number. -/
def minExponent : Int := -1074

/-- The largest exponent of a finite number. -/
def maxExponent : Int := 971

/-- Round a quotient to the nearest natural number, a tie to the even one. -/
def roundToEven (num den : Nat) : Nat :=
  let whole := num / den
  let twice := 2 * (num % den)
  if twice < den then whole
  else if den < twice then whole + 1
  else whole + whole % 2

/-- The numerator and denominator of `num / den` divided by `2 ^ exponent`. -/
def scale (num den : Nat) (exponent : Int) : Nat × Nat :=
  (num * Nat.pow 2 (-exponent).toNat, den * Nat.pow 2 exponent.toNat)

/-- The number nearest to `num / den`; infinite if that is beyond all finite numbers. -/
def ofQuotient (negative : Bool) (num den : Nat) : Binary64 :=
  if num = 0 then finite negative 0 minExponent
  else
    let guess := (num.log2 : Int) - den.log2 - 53
    let low := max guess minExponent
    let (n, d) := scale num den low
    let exponent := if Nat.pow 2 53 ≤ n / d then low + 1 else low
    let (n, d) := scale num den exponent
    let rounded := roundToEven n d
    let (mantissa, exponent) :=
      if rounded = Nat.pow 2 53 then (Nat.pow 2 52, exponent + 1) else (rounded, exponent)
    if maxExponent < exponent then infinite negative else finite negative mantissa exponent

/--
The number nearest to `coefficient * 10 ^ exponent`. Coefficients of far more than 300 places
before the point, or of zeros only that far behind it, are decided without a power of ten.
-/
def ofDecimal (negative : Bool) (coefficient : Nat) (exponent : Int) : Binary64 :=
  let places : Int := coefficient.log2 / 3 + 1
  if coefficient = 0 then finite negative 0 minExponent
  else if 1100 < exponent then infinite negative
  else if exponent + places < -1100 then finite negative 0 minExponent
  else
    ofQuotient negative (coefficient * Nat.pow 10 exponent.toNat) (Nat.pow 10 (-exponent).toNat)

/-- Whether a number is finite. -/
def isFinite : Binary64 → Bool
  | finite _ _ _ => true
  | _ => false

end Binary64
end LuaVeil
