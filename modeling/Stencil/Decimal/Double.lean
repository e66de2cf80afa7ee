/-!
This module contains the exact value of a double: a natural number times a power of two.
-/

namespace Stencil

inductive Double where
  | nan
  | infinity (negative : Bool)
  /-- The number `mantissa * 2 ^ exponent`, or its negation. -/
  | finite (negative : Bool) (mantissa : Nat) (exponent : Int)

namespace Double

def ofFloat (x : Float) : Double :=
  let bits := x.toBits.toNat
  let negative := decide (bits / 9223372036854775808 = 1)
  let exponent := bits / 4503599627370496 % 2048
  let fraction := bits % 4503599627370496
  if exponent = 2047 then
    if fraction = 0 then infinity negative else nan
  else if exponent = 0 then
    finite negative fraction (-1074)
  else
    finite negative (fraction + 4503599627370496) (exponent - 1075)

/-- A key that orders all doubles, with the two zeros and the two signs of NaN kept apart. -/
def totalKey (x : Float) : Int :=
  let bits := x.toBits.toNat
  if bits < 9223372036854775808 then bits else 9223372036854775807 - bits

end Double

end Stencil
