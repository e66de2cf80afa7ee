import Stencil.LoweredEquation
import Stencil.View.Problem

/-!
This module contains the JSON form of iteration spaces, data spaces and lowered equations.
-/

namespace Stencil

namespace Interval

def pairView (a b : Interval) : Json :=
  .object [
    ("a", .string a.text), ("limits", .ofPair (.int a.bounds.lower) (.int a.bounds.upper)),
    ("union", .string (a.hull b).text), ("intersection", .string (a.meet b).text),
    ("cmp", .ofOrdering (a.cmp b))]

end Interval

namespace IterationSpace

def viewAlong (s : IterationSpace) (d : Dimension) : Checked Json := do
  return .object [
    ("contains", .bool (s.contains d)), ("direction", .string (s.direction d).text),
    ("subs", .ofStrings (← (s.slotsOf d).mapM Slot.text)),
    ("dimensions", .ofList Dimension.label s.dimensions)]

def view (s : IterationSpace) : Checked Json := do
  let slots ← s.slots.entries.mapM fun e => do
    return Json.ofPair e.1.label (.ofStrings (← e.2.mapM Slot.text))
  return .object [
    ("display", .string s.text), ("intervals", .ofStrings (s.intervals.map Interval.text)),
    ("subs", .array slots), ("directions", Direction.viewAll s.directions)]

end IterationSpace

namespace DataSpace

def view (dims : List Dimension) (s : DataSpace) : Json :=
  .ofList (fun e => .ofPair e.1.label (.ofStrings (dims.filterMap fun d =>
    (e.2.find? d).map Interval.text))) s.parts.entries

end DataSpace

namespace Guard

def viewAll (m : OrdMap Dimension Guard) : Checked Json := do
  return .array (← m.entries.mapM fun e => do
    return .ofPair e.1.label (.string (← e.2.text)))

end Guard

namespace LoweredEquation

def view (dims : List Dimension) (e : LoweredEquation) : Checked Json := do
  return .object [
    ("eq", .string (← e.equation.text)),
    ("write", .ofOption .string (← e.equation.write?.mapM Reference.text)),
    ("ispace", ← e.iterationSpace.view), ("dspace", e.dataSpace.view dims),
    ("guards", ← Guard.viewAll e.guards)]

end LoweredEquation

end Stencil
