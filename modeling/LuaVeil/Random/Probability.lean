/-
# Probabilities

A probability is a rational number between zero and one. Every binary64 number
in that range is one, exactly.
-/
import LuaVeil.Number.Binary64

namespace LuaVeil

/-- The exact value of a finite number. -/
def Binary64.toRat? : Binary64 → Option Rat
  | finite negative mantissa exponent =>
    let size := mkRat (mantissa * Nat.pow 2 exponent.toNat) (Nat.pow 2 (-exponent).toNat)
    some (if negative then -size else size)
  | _ => none

/-- A rational number between zero and one. -/
structure Probability where
  value : Rat
  nonneg : 0 ≤ value
  le_one : value ≤ 1

namespace Probability

/-- A number as a probability, if it is between zero and one. -/
def ofRat? (value : Rat) : Option Probability :=
  if h : 0 ≤ value ∧ value ≤ 1 then some ⟨value, h.1, h.2⟩ else none

/-- A binary64 number as a probability, if it is between zero and one. -/
def ofBinary64? (x : Binary64) : Option Probability :=
  x.toRat?.bind ofRat?

/-- How many of the `2 ^ 64` numbers of 64 bits stand for success. -/
def threshold (p : Probability) : Nat :=
  (p.value * mkRat (Nat.pow 2 64) 1).floor.toNat

end Probability
end LuaVeil
