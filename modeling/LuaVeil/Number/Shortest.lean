/-
# Shortest decimal notation

A finite binary64 number is written with the fewest digits that read back as the
same number. All numbers between `lower` and `upper` read back as it, the two
ends included if its mantissa is even. On the decimal grid of a given power of
ten only the two neighbours of the number can be such digits, so the coarsest
grid with a hit gives the answer; of two hits the nearer is taken, and the upper
of two equally near.

`positional` writes a number without an exponent, however long it gets.
-/
import LuaVeil.Number.Binary64
import LuaVeil.Number.Digits

namespace LuaVeil.Binary64

/-! ## The interval of numbers that read back -/

/-- A positive finite number in quarters of its last binary place. -/
structure Neighbourhood where
  value : Nat
  lower : Nat
  upper : Nat
  /-- whether the ends read back too -/
  closed : Bool
  /-- the binary exponent of a quarter -/
  exponent : Int

/--
The numbers that read back as `mantissa * 2 ^ exponent`. The next number below is only half as far
away if the mantissa is the smallest of its kind.
-/
def neighbourhood (mantissa : Nat) (exponent : Int) : Neighbourhood where
  value := 4 * mantissa
  lower := if mantissa = Nat.pow 2 52 ∧ minExponent < exponent then 4 * mantissa - 1
    else 4 * mantissa - 2
  upper := 4 * mantissa + 2
  closed := mantissa % 2 == 0
  exponent := exponent - 2

namespace Neighbourhood

/-- Decimal place `place` and a quarter, both in units that make them natural numbers. -/
def units (n : Neighbourhood) (place : Int) : Nat × Nat :=
  (Nat.pow 10 place.toNat * Nat.pow 2 (-n.exponent).toNat,
    Nat.pow 2 n.exponent.toNat * Nat.pow 10 (-place).toNat)

/-- The digits at decimal place `place` that read back as the number and are nearest to it. -/
def atPlace (n : Neighbourhood) (place : Int) : Option Nat :=
  let (tens, quarter) := n.units place
  let value := n.value * quarter
  let below := value / tens
  let above := below + 1
  let reads (digits : Nat) : Bool :=
    let point := digits * tens
    let lower := n.lower * quarter
    let upper := n.upper * quarter
    if n.closed then lower ≤ point && point ≤ upper else lower < point && point < upper
  match reads below, reads above with
  | true, true => some (if value - below * tens < above * tens - value then below else above)
  | true, false => some below
  | false, true => some above
  | false, false => none

end Neighbourhood

/-- The decimal places that can end a shortest notation, the coarsest first. -/
def places : List Int :=
  (List.range 640).map fun (i : Nat) => 310 - (i : Int)

/-- The shortest digits of a positive finite number and the decimal place of the last. -/
def shortest (mantissa : Nat) (exponent : Int) : Nat × Int :=
  let n := neighbourhood mantissa exponent
  (places.findSome? fun place => (n.atPlace place).map fun digits => (digits, place)).getD (0, 0)

/-! ## Writing -/

/-- `coefficient * 10 ^ place` without an exponent. -/
def pointed (coefficient : Nat) (place : Int) : Text :=
  let text := Number.decimal coefficient
  if 0 ≤ place then text ++ List.replicate place.toNat '0'
  else
    let behind := (-place).toNat
    let text := List.replicate (behind + 1 - text.length) '0' ++ text
    let front := text.length - behind
    text.take front ++ '.' :: text.drop front

/-- The shortest notation of a number without an exponent. Minus zero keeps its sign. -/
def positional : Binary64 → Text
  | notANumber => "NaN".toList
  | infinite negative => (if negative then "-inf" else "inf").toList
  | finite negative mantissa exponent =>
    let text :=
      if mantissa = 0 then ['0']
      else
        let (coefficient, place) := shortest mantissa exponent
        pointed coefficient place
    if negative then '-' :: text else text

end LuaVeil.Binary64
