import Stencil.OrderedAt
import Stencil.Word

/-!
This module contains arithmetic on fractions whose numerator and denominator are machine words.
The value of every operation is that of the rational numbers; what is particular is which words
occur while it is computed.
-/

namespace Stencil

namespace Fraction

def isWords (q : Rat) : Bool := Word.isSigned q.num && Word.isSigned q.den

def ofInts (n d : Int) : Checked Rat :=
  let q := Rat.divInt n d
  .guarded (decide (d ≠ 0) && isWords q) q

/-- A sum is taken over the least common denominator, without reducing before the end. -/
def add (a b : Rat) : Checked Rat :=
  if a.den = b.den then
    .guarded (Word.isSigned (a.num + b.num)) (a + b)
  else
    let common := a.den.lcm b.den
    let left := a.num * (common / a.den : Nat)
    let right := b.num * (common / b.den : Nat)
    let fits := Word.isSigned common && Word.isSigned left && Word.isSigned right &&
      Word.isSigned (left + right)
    .guarded fits (a + b)

/-- A product is reduced before it is multiplied out, so only the result has to fit. -/
def mul (a b : Rat) : Checked Rat :=
  let product := a * b
  .guarded (isWords product) product

/--
An integer power. A negative exponent takes the reciprocal of the positive power, which zero does
not have, and which moves the sign of the denominator to the numerator.
-/
def pow (q : Rat) (e : Int) : Checked Rat := do
  let num ← Word.pow q.num e.natAbs
  let den ← Word.pow q.den e.natAbs
  if 0 ≤ e then
    return Rat.divInt num den
  else
    Checked.ensure (decide (num ≠ 0) && Word.isSigned (-num))
    return Rat.divInt den num

def toInt? (q : Rat) : Option Int := if q.den = 1 then some q.num else none

def cmp (a b : Rat) : Ordering := if a < b then .lt else if a = b then .eq else .gt

theorem cmp_orderedAt (a : Rat) : OrderedAt cmp a where
  swap b := by
    unfold cmp
    rw [apply_ite Ordering.swap, apply_ite Ordering.swap]
    simp only [Ordering.swap_lt, Ordering.swap_eq, Ordering.swap_gt]
    grind
  chain b c := by
    unfold cmp OrderChain
    grind
  eq_iff b := by
    unfold cmp
    grind

def ratioText (q : Rat) : String := s!"{q.num}/{q.den}"

def text (q : Rat) : String := if q.den = 1 then toString q.num else ratioText q

end Fraction

end Stencil
