import Stencil.Cluster
import Stencil.Temporaries.Compact
import Stencil.Temporaries.Eliminate

/-!
This module contains the optimization of the equations of clusters.
-/

namespace Stencil

inductive Optimization where
  | none
  | basic
  deriving DecidableEq

namespace Optimization

def name : Optimization → String
  | none => "none"
  | basic => "basic"

def ofName? (s : String) : Option Optimization := [none, basic].find? (·.name == s)

/-- Reads an optimization as users write it: by its name, or "noop" for none. -/
def ofText? (s : String) : Option Optimization := if s = "noop" then some none else ofName? s

def unknownMessage (s : String) : String := s!"unknown DSE mode `{s}`"

def temporary (i : Nat) : Expr := .sym s!"r{i}"

/--
Computes common subexpressions of the equations of a program once. The temporaries are numbered from
`first`; their number is returned, too.
-/
def optimizeEquations (first : Nat) (eqs : List Equation) : Checked (List Equation × Nat) := do
  let eqs ← Temporaries.eliminate (fun i => temporary (first + i)) eqs
  let (temporaries, leaves) := eqs.partition (·.isScalar)
  return (← Temporaries.compact temporaries leaves, temporaries.length)

def optimizeFrom (first : Nat) : List Cluster → Checked (List Cluster)
  | [] => pure []
  | c :: cs => do
    let (eqs, n) ← optimizeEquations first c.equations
    return { c with equations := eqs } :: (← optimizeFrom (first + n) cs)

def optimize (mode : Optimization) (cs : List Cluster) : Checked (List Cluster) :=
  match mode with
  | .none => pure cs
  | .basic => optimizeFrom 0 cs

end Optimization

end Stencil
