/-
# Digits

Numerals in base 10, 16 and 36, with small letters for the digits from ten on.
Digits are written by `digits` and read by `readDigits`.
-/
import LuaVeil.Text.Basic

namespace LuaVeil.Number

/-- The character of a digit below 36. -/
def digitChar (d : Nat) : Char :=
  if d < 10 then Char.ofNat ('0'.toNat + d) else Char.ofNat ('a'.toNat + (d - 10))

/-- The digits of a number, last digit first; none for zero. -/
def reverseDigits (base : Nat) (n : Nat) : List Nat :=
  if _ : n = 0 ∨ base < 2 then [] else n % base :: reverseDigits base (n / base)
termination_by n
decreasing_by exact Nat.div_lt_self (by omega) (by omega)

/-- The numeral of a number: at least one digit, the first not zero unless the number is. -/
def digits (base n : Nat) : Text :=
  if n = 0 then ['0'] else (reverseDigits base n).reverse.map digitChar

/-- The decimal numeral of a number. -/
def decimal (n : Nat) : Text :=
  digits 10 n

/-- The decimal numeral of an integer. -/
def decimalInt (n : Int) : Text :=
  if n < 0 then '-' :: decimal n.natAbs else decimal n.natAbs

/-- A numeral of at least `width` digits, filled with zeros in front. -/
def padded (width n : Nat) : Text :=
  List.replicate (width - (decimal n).length) '0' ++ decimal n

/-- The value of a digit or letter in bases up to 36; letters count alike in both cases. -/
def digitValue? (base : Nat) (c : Char) : Option Nat :=
  let value? :=
    if c.isDigit then some (c.toNat - '0'.toNat)
    else if c.isLower then some (c.toNat - 'a'.toNat + 10)
    else if c.isUpper then some (c.toNat - 'A'.toNat + 10)
    else none
  value?.filter (· < base)

/-- The value of a text of digits; `none` if another character occurs. Zero for the empty text. -/
def readDigits (base : Nat) (t : Text) : Option Nat :=
  t.foldlM (fun value c => (digitValue? base c).map (value * base + ·)) 0

/-- The character whose code point is written in hexadecimal, with at least one digit. -/
def hexChar? (t : Text) : Option Char :=
  if t.isEmpty then none
  else (readDigits 16 t).bind fun n => if n.isValidChar then some (Char.ofNat n) else none

/-- The two hexadecimal digits of a byte. -/
def hexByte (b : UInt8) : Text :=
  [digitChar (b.toNat / 16), digitChar (b.toNat % 16)]

/-- Bytes in hexadecimal. -/
def hex (bytes : List UInt8) : Text :=
  bytes.flatMap hexByte

end LuaVeil.Number
