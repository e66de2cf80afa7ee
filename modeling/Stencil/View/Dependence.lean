import Stencil.Dependence
import Stencil.View.Problem

/-!
This module contains the JSON form of accesses and dependences.
-/

namespace Stencil

namespace OffsetVector

def comparisonView (c : Option Ordering) : Json :=
  let holds (o : Ordering) : Json := .ofOption (fun o' => .bool (o' == o)) c
  .object [
    ("ordering", .ofOption .ofOrdering c), ("lt", holds .lt), ("gt", holds .gt), ("eq", holds .eq),
    ("determinate", .bool c.isSome), ("reverse", .ofOption (fun o => .ofOrdering o.swap) c)]

end OffsetVector

namespace Access

def regularityView (a : Access) : Checked Json := do
  return .ofStrings ((← a.regularity).map fun r => if r then "regular" else "irregular")

def view (a : Access) : Checked Json := do
  let isRegular ← a.isRegular
  return .object [
    ("display", .string (← a.text)), ("function", GridFunction.label a.function),
    ("is_read", .bool a.isRead), ("is_write", .bool a.isWrite), ("rank", .ofNat a.rank),
    ("indices", ← Expr.labels a.indices), ("findices", .ofList Dimension.label a.dimensions),
    ("index_mode", ← a.regularityView), ("is_regular", .bool isRegular),
    ("is_irregular", .bool !isRegular)]

end Access

namespace TimedAccess

def view (a : TimedAccess) : Checked Json := do
  return .object [
    ("display", .string (← a.text)), ("timestamp", .ofNat a.timestamp),
    ("directions", .ofStrings (a.directions.map Direction.text)),
    ("increment", .bool a.isIncrement), ("index_mode", ← a.access.regularityView)]

end TimedAccess

namespace Dependence

def view (dims : List Dimension) (d : Dependence) : Checked Json := do
  return .object [
    ("display", .string (← d.text)), ("description", .string (← d.description)),
    ("function", GridFunction.label d.function), ("kind", .string d.kind.text),
    ("distance", ← Expr.labels d.distance),
    ("at", .ofPair (.ofNat d.source.timestamp) (.ofNat d.sink.timestamp)),
    ("cause", .ofOption Dimension.label d.cause),
    ("findices", .ofList Dimension.label d.source.dimensions), ("indirect", .bool d.isIndirect),
    ("direct", .bool !d.isIndirect), ("carried", .bool (← d.isCarried)),
    ("carried_by", .ofList Dimension.label (dims.filter d.isCarriedBy)),
    ("independent", .bool d.isIndependent),
    ("independent_of", .ofList Dimension.label (dims.filter d.isIndependentOf)),
    ("inplace", .bool d.isInPlace), ("increment", .bool d.isIncrement)]

end Dependence

end Stencil
