import Stencil.Checked

/-!
This module contains the ranges of machine words and the integer operations that have to stay
inside of them.
-/

namespace Stencil

namespace Word

def isSigned (i : Int) : Bool :=
  decide (-9223372036854775808 ≤ i) && decide (i ≤ 9223372036854775807)

def isUnsigned (n : Nat) : Bool := decide (n < 18446744073709551616)

def isShort (i : Int) : Bool := decide (-2147483648 ≤ i) && decide (i ≤ 2147483647)

def toSigned (n : Nat) : Int := Int.bmod n 18446744073709551616

def signed (i : Int) : Checked Int := .guarded (isSigned i) i

def unsigned (n : Nat) : Checked Nat := .guarded (isUnsigned n) n

def add (a b : Int) : Checked Int := signed (a + b)

def sub (a b : Int) : Checked Int := signed (a - b)

def mul (a b : Int) : Checked Int := signed (a * b)

/--
The `n`-th power of a word. A base of two or more leaves the range before the 64th power, so larger
exponents are not computed, and neither are powers of what is no word already.
-/
def pow (base : Int) (n : Nat) : Checked Int :=
  if n = 0 then
    pure 1
  else if base.natAbs ≤ 1 then
    pure (base.pow (2 - n % 2))
  else if n < 64 ∧ isSigned base then
    signed (base.pow n)
  else
    .guarded false 1

end Word

end Stencil
