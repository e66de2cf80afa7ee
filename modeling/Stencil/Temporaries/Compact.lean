import Stencil.FlowGraph

/-!
This module contains the removal of temporaries that are not worth a name of their own.
-/

namespace Stencil

namespace Temporaries

def replaceFully (σ : Expr → Option Expr) (fuel : Nat) (e : Expr) : Checked Expr :=
  match fuel with
  | 0 => pure e
  | fuel + 1 => do
    let next ← e.replace σ
    if next = e then return e else replaceFully σ fuel next

def isCheap : Expr → Bool
  | .num _ => true
  | .sym _ => true
  | .access _ _ => true
  | .call _ _ => true
  | _ => false

/-- Whether a node defines a scalar of a cheap value that not only `leaves` read. -/
def isRemovable (leaves : OrdSet Expr) (n : FlowNode) : Bool :=
  n.equation.isScalar && isCheap n.equation.rhs && !n.readBy.toList.all leaves.contains

def compact (temporaries leaves : List Equation) : Checked (List Equation) :=
  let nodes := (FlowGraph.ofEquations (temporaries ++ leaves)).nodes
  let removable := nodes.filter (isRemovable (.ofList (leaves.map (·.lhs))))
  let values : OrdMap Expr Expr := .ofList (removable.map fun n => (n.lhs, n.equation.rhs))
  (nodes.filter fun n => !values.contains n.lhs).mapM fun n => do
    let rhs ← replaceFully values.find? (values.size + 1) n.equation.rhs
    return { n.equation with rhs := rhs }

end Temporaries

end Stencil
