import Stencil.Schedule
import Stencil.View.Cluster
import Stencil.View.Halo

/-!
This module contains the JSON form of schedules and of groups of clusters.
-/

namespace Stencil

namespace Cluster

def viewAll (dims : List Dimension) (cs : List Cluster) : Checked Json := do
  return .object [
    ("clusters", .array (← cs.mapM (view dims))), ("ispace", ← (commonSpace cs).view),
    ("is_empty", .bool cs.isEmpty)]

end Cluster

namespace Schedule

def view (s : Schedule) : Checked Json := do
  let rows ← s.lowered.mapM fun e => do
    return Json.ofPair (.string (← e.equation.text)) (.string e.iterationSpace.text)
  return .object [
    ("lowered", .array rows), ("scope", .string (← s.scope.text)),
    ("deps", .ofStrings (← s.scope.dependences.mapM Dependence.description)),
    ("clusters", .ofStrings (← s.clusters.mapM Cluster.text)),
    ("halo", .array (← s.schemes.mapM HaloScheme.view))]

end Schedule

end Stencil
