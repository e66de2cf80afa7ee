import Stencil.Problem.Basic
import Stencil.View.Expr

/-!
This module contains the JSON form of problems and of what they declare.
-/

namespace Stencil

namespace Dimension

def kind : Dimension → DimensionKind
  | plain _ => .plain
  | space _ => .space
  | time _ => .time
  | stepping _ _ => .stepping
  | conditional _ _ _ => .conditional

def factor? : Dimension → Option Int
  | conditional _ _ f => some f
  | _ => none

def label (d : Dimension) : Json := .string d.name

def view (d : Dimension) : Json := .object [
  ("name", d.label), ("kind", .string d.kind.name), ("factor", .ofOption .int d.factor?),
  ("parent", .ofOption label d.parent?), ("root", d.root.label), ("is_space", .bool d.isSpace),
  ("is_time", .bool d.isTime), ("is_stepping", .bool d.isStepping),
  ("is_conditional", .bool d.isConditional), ("expr", d.label),
  ("debug", .string ("Dimension(" ++ d.name ++ ") Symbol(" ++ d.name ++ ")"))]

end Dimension

namespace FunctionKind

def name : FunctionKind → String
  | dense => "dense"
  | sparse => "sparse"
  | array false => "array"
  | array true => "stack_array"

end FunctionKind

namespace GridFunction

def label (f : GridFunction) : Json := .string f.name

def widthsView (w : Nat × Nat) : Json := .ofPair (.ofNat w.1) (.ofNat w.2)

def extentView (f : GridFunction) (d : Dimension) : Checked Json := do
  return .object [
    ("dim", d.label), ("index", .ofOption .ofNat (f.indexOf? d)),
    ("halo", widthsView (f.haloAlong d)), ("offset", widthsView (← f.offsetAlong d))]

def view (dims : List Dimension) (f : GridFunction) : Checked Json := do
  return .object [
    ("name", f.label), ("kind", .string f.kind.name),
    ("dimensions", .ofList Dimension.label f.dimensions), ("shape", ← Expr.labels f.shape),
    ("halo", .ofList widthsView f.halo), ("padding", .ofList widthsView f.padding),
    ("on_grid", .bool f.grid.isSome), ("time_size", .ofOption .ofNat f.timeSize),
    ("dtype", .string f.elementType.name), ("itemsize", .ofNat f.elementType.size),
    ("is_tensor", .bool f.isTensor), ("is_array", .bool f.isArray),
    ("is_stack_array", .bool f.isStackArray), ("indexify", ← f.indexify.label),
    ("debug", .string ("Function(" ++ f.name ++ ")")),
    ("extents", .array (← dims.mapM (extentView f)))]

end GridFunction

namespace Grid

def view (g : Grid) : Json := .object [
  ("shape", .ofList .ofNat g.shape), ("dimensions", .ofList Dimension.label g.dimensions),
  ("distributed", .ofList Dimension.label g.distributed.toList),
  ("is_distributed", .ofList (fun d => .bool (g.isDistributed d)) g.dimensions),
  ("time", .ofOption Dimension.label g.time), ("stepping", .ofOption Dimension.label g.stepping)]

end Grid

namespace Equation

def sidesViewAll (eqs : List Equation) : Checked Json := do
  return .array (← eqs.mapM fun eq => do
    return .object [("display", .string (← eq.text)), ("lhs", eq.lhs.tree), ("rhs", eq.rhs.tree)])

def view (eq : Equation) : Checked Json := do
  return .object [
    ("display", .string (← eq.text)), ("lhs", eq.lhs.tree), ("rhs", eq.rhs.tree),
    ("is_increment", .bool eq.isIncrement), ("is_scalar", .bool eq.isScalar),
    ("is_tensor", .bool eq.isTensor),
    ("write", .ofOption .string (← eq.write?.mapM Reference.text)),
    ("reads", .ofStrings (← eq.reads.mapM Reference.text))]

end Equation

namespace Direction

def viewAll (m : OrdMap Dimension Direction) : Json :=
  .ofList (fun e => .ofPair e.1.label (.string e.2.text)) m.entries

end Direction

namespace Problem

def view (dims : List Dimension) (functions : List GridFunction) (p : Problem) : Checked Json := do
  return .object [
    ("name", .ofOption .string p.name), ("len", .ofNat p.table.size),
    ("is_empty", .bool p.table.isEmpty), ("dimensions", .ofList Dimension.view dims),
    ("grid", .ofOption Grid.view p.grid),
    ("functions", .array (← functions.mapM (GridFunction.view dims))),
    ("equations", .array (← p.equations.mapM Equation.view)),
    ("directions", Direction.viewAll p.directions)]

end Problem

end Stencil
