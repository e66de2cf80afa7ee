import Stencil.Decimal.Double

/-!
This module contains decimals with a fixed number of places.
-/

namespace Stencil

namespace Decimal

/-- The integer nearest to `num / den`; a half goes to the even neighbour. -/
def roundDiv (num den : Nat) : Nat :=
  let q := num / den
  let r := num % den
  if 2 * r < den ∨ (2 * r = den ∧ q % 2 = 0) then q else q + 1

/-- The integer nearest to `mantissa * 2 ^ exponent * 10 ^ places`. -/
def scaled (mantissa : Nat) (exponent : Int) (places : Nat) : Nat :=
  if 0 ≤ exponent then
    mantissa * Nat.pow 2 exponent.toNat * Nat.pow 10 places
  else
    roundDiv (mantissa * Nat.pow 10 places) (Nat.pow 2 (-exponent).toNat)

def padZeros (width : Nat) (text : String) : String :=
  String.ofList (List.replicate (width - text.length) '0') ++ text

/-- A double with `places` decimals. The sign of zero is written too. -/
def fixed (places : Nat) (x : Float) : String :=
  match Double.ofFloat x with
  | .nan => "NaN"
  | .infinity negative => if negative then "-inf" else "inf"
  | .finite negative mantissa exponent =>
    let n := scaled mantissa exponent places
    let whole := toString (n / Nat.pow 10 places)
    let fraction := padZeros places (toString (n % Nat.pow 10 places))
    (if negative then "-" else "") ++ whole ++ "." ++ fraction

def seconds (x : Float) : String := fixed 6 x

end Decimal

end Stencil
