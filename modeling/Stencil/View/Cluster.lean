import Stencil.Cluster
import Stencil.View.Space

/-!
This module contains the JSON form of flow graphs and clusters.
-/

namespace Stencil

namespace FlowGraph

def nodeView (g : FlowGraph) (n : FlowNode) : Checked Json := do
  let last ← (g.lastDefinition? n.lhs).mapM fun m => m.equation.text
  return .object [
    ("eq", .string (← n.equation.text)), ("reads", ← Expr.labels n.reads.toList),
    ("readby", ← Expr.labels n.readBy.toList), ("is_scalar", .bool n.equation.isScalar),
    ("is_tensor", .bool n.equation.isTensor), ("last_def", .ofOption .string last),
    ("time_invariant", .bool (g.isTimeInvariantAt n.lhs))]

def view (g : FlowGraph) : Checked Json := do
  let tensors ← g.tensors.entries.mapM fun e => do
    return Json.ofPair (GridFunction.label e.1) (← Expr.labels e.2)
  return .object [
    ("len", .ofNat g.size), ("is_empty", .bool g.isEmpty),
    ("nodes", .array (← g.nodes.mapM g.nodeView)), ("tensors", .array tensors),
    ("unknown", .ofStrings g.unknowns.toList),
    ("space_indices", .ofList Dimension.label g.spaceIndices),
    ("time_indices", .ofStrings g.timeIndices.toList),
    ("time_invariant", .bool g.isTimeInvariant)]

end FlowGraph

namespace Cluster

def bodyView (dims : List Dimension) (c : Cluster) : Checked Json := do
  return .object [
    ("exprs", .ofStrings (← c.equations.mapM Equation.text)),
    ("ispace", .string c.iterationSpace.text), ("dspace", c.dataSpace.view dims),
    ("atomics", .ofList Dimension.label c.atomics.toList), ("guards", ← Guard.viewAll c.guards)]

def view (dims : List Dimension) (c : Cluster) : Checked Json := do
  return .object [
    ("display", .string (← c.text)), ("body", ← c.bodyView dims), ("is_dense", .bool c.isDense),
    ("is_sparse", .bool !c.isDense), ("unknown", .ofStrings c.unknowns.toList),
    ("tensors", .ofList GridFunction.label c.tensors), ("trace_len", .ofNat c.flowGraph.size)]

end Cluster

end Stencil
