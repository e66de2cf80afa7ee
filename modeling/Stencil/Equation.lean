import Stencil.Expr.Text

/-!
This module contains equations, the statements of a program.
-/

namespace Stencil

/-- Assigns the value of `rhs` to `lhs`, or adds it to `lhs`. -/
structure Equation where
  lhs : Expr
  rhs : Expr
  isIncrement : Bool
  deriving DecidableEq

namespace Equation

def write? (eq : Equation) : Option Reference := eq.lhs.toReference?

def isScalar (eq : Equation) : Bool := eq.lhs.toSymbol?.isSome

def isTensor (eq : Equation) : Bool := eq.write?.isSome

/-- The array elements that are read: in the value, then to find the element that is written. -/
def reads (eq : Equation) : List Reference :=
  eq.rhs.references ++
    match eq.write? with
    | some w => Expr.referencesOfList w.indices
    | none => []

def references (eq : Equation) : List Reference := eq.write?.toList ++ eq.reads

def text (eq : Equation) : Checked String := do
  let lhs ← eq.lhs.text
  let rhs ← eq.rhs.text
  return lhs ++ (if eq.isIncrement then " += " else " = ") ++ rhs

end Equation

end Stencil
