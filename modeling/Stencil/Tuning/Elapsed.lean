import Stencil.Decimal.Double
import Stencil.Decimal.Fixed

/-!
This module contains what the tuner needs to know of the times that it measures, and seconds, which
are such times.
-/

namespace Stencil.Tuning

class Elapsed (τ : Type) where
  /-- What has been recorded of a region at first. -/
  zero : τ
  /-- The total over no region at all. -/
  none : τ
  add : τ → τ → τ
  less : τ → τ → Bool
  /-- Whether a time may stand in front of another in a sorted list. -/
  inOrder : τ → τ → Bool
  text : τ → String

/-- A number of seconds, or what comes out of a meaningless operation, which has a sign, too. -/
inductive Seconds where
  | number (value : Float)
  | invalid (isNegative : Bool)

namespace Seconds

def ofFloat (x : Float) : Seconds := if x.isNaN then invalid true else number x

/-- Applies an operation. What is invalid stays as it is, and the first one of two stays. -/
def lift (op : Float → Float → Float) : Seconds → Seconds → Seconds
  | number x, number y => ofFloat (op x y)
  | number _, t => t
  | t, _ => t

def add (a b : Seconds) : Seconds := lift (· + ·) a b

def mul (a b : Seconds) : Seconds := lift (· * ·) a b

def less : Seconds → Seconds → Bool
  | number x, number y => decide (x < y)
  | _, _ => false

/--
A key to sort by, which tells the negative zero from the positive one and puts what is invalid at
one of the ends.
-/
def key : Seconds → Int
  | number x => Double.totalKey x
  | invalid true => -9223372036854775808
  | invalid false => 9223372036854775808

def text : Seconds → String
  | number x => Decimal.seconds x
  | invalid _ => "NaN"

/-- The total over no region is the negative zero, which is neutral for addition. -/
instance : Elapsed Seconds where
  zero := number 0.0
  none := number (-0.0)
  add
  less
  inOrder a b := decide (a.key ≤ b.key)
  text

end Seconds

end Stencil.Tuning
