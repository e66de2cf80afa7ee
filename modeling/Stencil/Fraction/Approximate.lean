/-!
This module contains the conversion of doubles to fractions of machine words. The continued fraction
of a double is expanded in double arithmetic until it is as good as doubles can tell.
-/

namespace Stencil

namespace Fraction

/-- Two successive convergents of a continued fraction, as numerators and denominators. -/
structure Convergents where
  previous : Nat × Nat
  current : Nat × Nat

namespace Convergents

def start : Convergents := ⟨(0, 1), (1, 0)⟩

def next (c : Convergents) (quotient : Nat) : Nat × Nat :=
  (quotient * c.current.1 + c.previous.1, quotient * c.current.2 + c.previous.2)

def push (c : Convergents) (n : Nat × Nat) : Convergents :=
  let divisor := n.1.gcd n.2
  ⟨c.current, (n.1 / divisor, n.2 / divisor)⟩

end Convergents

def largestWord : Nat := 9223372036854775807

def wordLimit : Float := 9223372036854775808.0

def toDouble (n : Nat) : Float := n.toUInt64.toFloat

/--
Expands the continued fraction of `target`, of which `rest` is left. The expansion ends with a
convergent that cannot be told from `target`, before one that is out of range, or after `fuel`
steps.
-/
def expand (target : Float) (c : Convergents) (rest : Float) : Nat → Convergents
  | 0 => c
  | fuel + 1 =>
    if rest ≥ wordLimit then
      c
    else
      let quotient := rest.toUInt64.toNat
      let fraction := rest - toDouble quotient
      let n := c.next quotient
      if n.1 > largestWord ∨ n.2 > largestWord then
        c
      else
        let c := c.push n
        if (toDouble n.1 / toDouble n.2 - target).abs < 1e-19 ∨ fraction < 1.0 / wordLimit then
          c
        else
          expand target c (1.0 / fraction) fuel

/-- A fraction close to a double; there is none for NaN and beyond the range of words. -/
def approximate? (x : Float) : Option Rat :=
  if x.isNaN ∨ x.abs > wordLimit then
    none
  else
    let (n, d) := (expand x.abs .start x.abs 30).current
    if d = 0 then
      none
    else
      some (if x < 0 then -Rat.divInt n d else Rat.divInt n d)

end Fraction

end Stencil
