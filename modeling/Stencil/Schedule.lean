import Stencil.Fusion
import Stencil.Halo.Scheme
import Stencil.Optimization

/-!
This module contains schedules: everything that is derived from the equations of a program.
-/

namespace Stencil

structure Configuration where
  fusion : Bool
  distributed : Bool
  optimization : Optimization
  deriving DecidableEq

structure Schedule where
  lowered : List LoweredEquation
  scope : Scope
  clusters : List Cluster
  schemes : List HaloScheme

inductive ScheduleError where
  | access (e : AccessError)
  | halo (e : HaloError)

namespace ScheduleError

def cause : ScheduleError → String
  | access e => e.message
  | halo e => e.message

def message (e : ScheduleError) : String :=
  match e with
  | access _ => "Access error: " ++ e.cause
  | halo _ => "Halo scheme error: " ++ e.cause

end ScheduleError

namespace Schedule

def ofEquations (config : Configuration) (eqs : List Equation)
    (directions : OrdMap Dimension Direction) : ExceptT ScheduleError Checked Schedule := do
  let lowered ← Equation.lowerAll eqs directions
  let scope ← (Scope.ofLowered lowered).adapt ScheduleError.access
  let clusters ← (Cluster.ofProgram config.fusion lowered).adapt ScheduleError.access
  let clusters ← config.optimization.optimize clusters
  let schemes ←
    if config.distributed then
      (clusters.mapM HaloScheme.ofCluster).adapt ScheduleError.halo
    else
      pure []
  return { lowered, scope, clusters, schemes }

end Schedule

end Stencil
