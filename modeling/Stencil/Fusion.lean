import Stencil.Cluster
import Stencil.Scope

/-!
This module contains the fusion of clusters. Each cluster joins the latest earlier cluster that it
can join, and it never moves past a cluster that it depends on.
-/

namespace Stencil

namespace Cluster

def jointScope (c d : Cluster) : Analysis Scope :=
  Scope.ofEquations (c.equations.map (·, c.iterationSpace) ++ d.equations.map (·, d.iterationSpace))

def crossing (boundary : Nat) (ds : List Dependence) : List Dependence :=
  ds.filter fun d =>
    decide (d.source.timestamp < boundary) != decide (d.sink.timestamp < boundary)

inductive Verdict where
  | fuse
  /-- It stays behind the earlier one, with more atomic dimensions. -/
  | stay (atomics : OrdSet Dimension)
  /-- It moves on to the cluster before. -/
  | pass

/--
Decides about the cluster `c` and the earlier cluster `earlier`. They are fused unless one of them
is guarded, their spaces differ, a carried dependence from a read to a write would be turned around,
or a dimension that carries a value from one to the other is atomic.
-/
def judge (earlier c : Cluster) : Analysis Verdict := do
  let scope ← earlier.jointScope c
  let boundary := earlier.equations.length
  let anti := crossing boundary scope.anti
  let anti := Dependence.difference (← Dependence.carried anti) (anti.filter (·.isIncrement))
  let flow := crossing boundary scope.flow
  let flow := Dependence.difference flow (flow.filter (·.isInPlace) ++ flow.filter (·.isIncrement))
  if earlier.guards.isEmpty && earlier.iterationSpace == c.iterationSpace && anti.isEmpty &&
      !((Dependence.causes flow).toList.any earlier.atomics.contains) then
    return .fuse
  else if !anti.isEmpty then
    return .stay (Dependence.causes anti)
  else if (crossing boundary scope.dependences).isEmpty then
    return .pass
  else
    return .stay .empty

inductive Placement where
  | joined (clusters : List Cluster)
  | alone (atomics : OrdSet Dimension)

/-- Finds the place of `c` among earlier clusters, of which the latest one comes first. -/
def place (c : Cluster) : List Cluster → Analysis Placement
  | [] => return .alone .empty
  | earlier :: rest => do
    match ← earlier.judge c with
    | .fuse => return .joined (earlier.absorb c :: rest)
    | .stay atomics => return .alone atomics
    | .pass =>
      match ← place c rest with
      | .joined cs => return .joined (earlier :: cs)
      | .alone atomics => return .alone atomics

/--
Adds `c` to earlier clusters, of which the latest one comes first. Guarded clusters stay alone.
-/
def addLatest (earlier : List Cluster) (c : Cluster) : Analysis (List Cluster) := do
  if c.guards.isEmpty then
    match ← c.place earlier with
    | .joined cs => return cs
    | .alone atomics => return { c with atomics := c.atomics.union atomics } :: earlier
  else
    return c :: earlier

def fuseAll (cs : List Cluster) : Analysis (List Cluster) := do
  return (← cs.foldlM addLatest []).reverse

def ofProgram (fusion : Bool) (es : List LoweredEquation) : Analysis (List Cluster) :=
  if fusion then fuseAll (es.map ofLowered) else return es.map ofLowered

end Cluster

end Stencil
