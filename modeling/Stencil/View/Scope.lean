import Stencil.Scope
import Stencil.View.Dependence

/-!
This module contains the JSON form of scopes. Sets of dependences are given as positions in the list
of all dependences of the scope.
-/

namespace Stencil

namespace Scope

def functionView (s : Scope) (positions : List Dependence → Json) (f : GridFunction) :
    Checked Json := do
  return .object [
    ("name", GridFunction.label f), ("project", positions (Dependence.project f s.dependences)),
    ("reads", .array (← (s.reads.of f).mapM TimedAccess.view)),
    ("writes", .array (← (s.writes.of f).mapM TimedAccess.view)),
    ("accesses", .ofStrings (← (s.accesses f).mapM TimedAccess.text))]

def view (dims : List Dimension) (s : Scope) : Checked Json := do
  let all := s.dependences
  let positions (ds : List Dependence) : Json := .ofList (fun d => .ofNat (all.idxOf d)) ds
  let along (p : Dependence → Dimension → Bool) : Json :=
    .ofList (fun d => .ofPair d.label (positions (all.filter fun e => p e d))) dims
  let causes (ds : List Dependence) : Json :=
    .ofList Dimension.label (Dependence.causes ds).toList
  let carried ← Dependence.carried all
  return .object [
    ("display", .string (← s.text)), ("has_dependences", .bool !all.isEmpty),
    ("functions", .array (← s.functions.toList.mapM (s.functionView positions))),
    ("counts", .ofList .ofNat [s.flow.length, s.anti.length, s.output.length]),
    ("deps", .array (← all.mapM (Dependence.view dims))),
    ("deps_display", .string ("\n".intercalate (← all.mapM Dependence.text))),
    ("cause", causes all), ("cause_flow", causes s.flow), ("cause_anti", causes s.anti),
    ("cause_output", causes s.output),
    ("dep_functions", .ofList GridFunction.label (Dependence.functions all).toList),
    ("direct", positions (all.filter (!·.isIndirect))),
    ("indirect", positions (all.filter (·.isIndirect))), ("carried", positions carried),
    ("independent", positions (all.filter (·.isIndependent))),
    ("carried_by", along Dependence.isCarriedBy),
    ("independent_of", along Dependence.isIndependentOf),
    ("inplace", positions (all.filter (·.isInPlace))),
    ("increment", positions (all.filter (·.isIncrement))),
    ("not_flow", positions (Dependence.difference all s.flow)),
    ("carried_direct_then_inplace",
      positions (carried.filter (!·.isIndirect) ++ all.filter (·.isInPlace)))]

end Scope

end Stencil
