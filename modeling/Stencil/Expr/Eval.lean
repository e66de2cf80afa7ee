import Stencil.Expr.Build

/-!
This module contains the evaluation of expressions under integer values of their scalars.
-/

namespace Stencil

namespace Expr

mutual

/--
The value of an expression. There is none if a scalar has no value, or if an array element, a call
or a negative power of zero is met.
-/
def evaluate (ρ : String → Option Int) : Expr → Checked (Option Rat)
  | num q => pure (some q)
  | sym s => pure ((ρ s).map fun v => (v : Rat))
  | access _ _ => pure none
  | add ts => evaluateSum ρ 0 ts
  | mul fs => evaluateProduct ρ 1 fs
  | pow b n => do
    match ← b.evaluate ρ with
    | none => return none
    | some v => if v = 0 ∧ n < 0 then return none else return some (← Fraction.pow v n)
  | call _ _ => pure none

def evaluateSum (ρ : String → Option Int) (acc : Rat) : List Expr → Checked (Option Rat)
  | [] => pure (some acc)
  | e :: es => do
    match ← e.evaluate ρ with
    | none => return none
    | some v => evaluateSum ρ (← Fraction.add acc v) es

def evaluateProduct (ρ : String → Option Int) (acc : Rat) : List Expr → Checked (Option Rat)
  | [] => pure (some acc)
  | e :: es => do
    match ← e.evaluate ρ with
    | none => return none
    | some v => evaluateProduct ρ (← Fraction.mul acc v) es

end

end Expr

end Stencil
