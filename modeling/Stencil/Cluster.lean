import Stencil.FlowGraph
import Stencil.LoweredEquation

/-!
This module contains clusters: lists of equations that are executed in one nest of loops.
-/

namespace Stencil

structure Cluster where
  equations : List Equation
  iterationSpace : IterationSpace
  dataSpace : DataSpace
  /-- The dimensions that must not be shared with a cluster that depends on this one. -/
  atomics : OrdSet Dimension
  guards : OrdMap Dimension Guard
  deriving DecidableEq

inductive ClusterError where
  | spaces (left right : IterationSpace)

def ClusterError.message : ClusterError → String
  | spaces left right =>
    "cannot squash clusters with different iteration spaces: " ++ left.text ++ " vs " ++ right.text

namespace Cluster

def ofLowered (e : LoweredEquation) : Cluster :=
  ⟨[e.equation], e.iterationSpace, e.dataSpace, .empty, e.guards⟩

def addEquations (eqs new : List Equation) : List Equation :=
  new.foldl (fun eqs eq => if eqs.contains eq then eqs else eqs ++ [eq]) eqs

def absorb (c other : Cluster) : Cluster :=
  { c with
    equations := addEquations c.equations other.equations
    dataSpace := .union [c.dataSpace, other.dataSpace] }

def squash (c other : Cluster) : Except ClusterError Cluster :=
  if c.iterationSpace = other.iterationSpace then
    .ok (c.absorb other)
  else
    .error (.spaces c.iterationSpace other.iterationSpace)

def flowGraph (c : Cluster) : FlowGraph := .ofEquations c.equations

def unknowns (c : Cluster) : OrdSet String := c.flowGraph.unknowns

def tensors (c : Cluster) : List GridFunction := c.flowGraph.tensors.keys

/-- Whether the equations sweep over space and change over time. -/
def isDense (c : Cluster) : Bool :=
  !c.flowGraph.spaceIndices.isEmpty && !c.flowGraph.isTimeInvariant

def commonSpace (cs : List Cluster) : IterationSpace :=
  .intersection (cs.map (·.iterationSpace))

def text (c : Cluster) : Checked String := do
  let kind := if c.isDense then "dense" else "sparse"
  let atomics :=
    if c.atomics.isEmpty then ""
    else " atomics=\x7b" ++ Dimension.joinNames c.atomics.toList ++ "\x7d"
  let guards ← c.guards.values.mapM fun g => do return " if " ++ (← g.text)
  let equations ← c.equations.mapM fun eq => do return "\n  " ++ (← eq.text)
  return "Cluster " ++ c.iterationSpace.text ++ " (" ++ kind ++ ")" ++ atomics ++
    String.join guards ++ String.join equations

end Cluster

end Stencil
