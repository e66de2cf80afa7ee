import Stencil.Equation

/-!
This module contains the promotion of scalars to temporary arrays.
-/

namespace Stencil

namespace Temporaries

def element (shape : List Expr) (indices : List Dimension) (onStack : Bool) (scalar : String) :
    Expr :=
  GridFunction.indexify (.declare scalar (.array onStack) indices shape)

def promote (shape : List Expr) (indices : List Dimension) (onStack : Bool)
    (eqs : List Equation) : Checked (List Equation) :=
  let scalars := eqs.filterMap fun eq => eq.lhs.toSymbol?
  let promoted : OrdMap Expr Expr :=
    .ofList (scalars.map fun s => (.sym s, element shape indices onStack s))
  eqs.mapM fun eq => do
    return ⟨(promoted.find? eq.lhs).getD eq.lhs, ← eq.rhs.replace promoted.find?, eq.isIncrement⟩

end Temporaries

end Stencil
