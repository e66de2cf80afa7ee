import Stencil.Equation
import Stencil.Json.Reader
import Stencil.Problem.File

/-!
This module contains problems: the equations of a problem file over the dimensions and arrays that
it declares. Declarations are resolved in the order dimensions, grid, arrays, equations, directions,
and the first thing that is wrong is reported.
-/

namespace Stencil

abbrev Loader := ExceptT LoadError Checked

structure Problem where
  name : Option String
  table : SymbolTable
  grid : Option Grid
  equations : List Equation
  directions : OrdMap Dimension Direction

namespace DimensionEntry

def resolveParent (t : SymbolTable) (e : DimensionEntry) : Except LoadError Dimension :=
  match e.parent with
  | some name => t.dimension name
  | none => .error (.invalid e.name .missingParent)

def resolve (t : SymbolTable) (e : DimensionEntry) : Except LoadError Dimension :=
  match e.kind with
  | .plain => .ok (.plain e.name)
  | .space => .ok (.space e.name)
  | .time => .ok (.time e.name)
  | .stepping => do return .stepping e.name (← e.resolveParent t)
  | .conditional =>
    match e.factor with
    | none => .error (.invalid e.name .missingFactor)
    | some factor =>
      if 0 < factor then
        return .conditional e.name (← e.resolveParent t) factor
      else
        .error (.invalid e.name .missingFactor)

end DimensionEntry

namespace GridEntry

/-- The stepping dimension counts only if there is a time dimension. -/
def resolve (t : SymbolTable) (e : GridEntry) : Except LoadError Grid := do
  let dimensions ← e.dimensions.mapM t.dimension
  if dimensions.length ≠ e.shape.length then
    throw (.invalid "grid" .gridRank)
  let distributed ← e.distributed.mapM t.dimension
  match e.time with
  | none => return ⟨e.shape, dimensions, .ofList distributed, none, none⟩
  | some time =>
    let stepping ← e.stepping.mapM t.dimension
    let time ← t.dimension time
    return ⟨e.shape, dimensions, .ofList distributed, some time, stepping⟩

end GridEntry

namespace FunctionEntry

def functionKind (e : FunctionEntry) : FunctionKind :=
  match e.kind with
  | .dense => .dense
  | .sparse => .sparse
  | .array => .array e.onStack

def resolve (t : SymbolTable) (grid : Option Grid) (e : FunctionEntry) : Loader GridFunction := do
  let dimensions ← (e.dimensions.mapM t.dimension : Except LoadError (List Dimension))
  let shape ← Formula.toExprs t e.shape
  return { FunctionDecl.declare e.name e.functionKind dimensions shape with
    halo := e.halo.getD (dimensions.map fun _ => (0, 0))
    padding := e.padding.getD (dimensions.map fun _ => (0, 0))
    grid := if e.onGrid.getD (e.kind != .array) then grid else none
    timeSize := e.timeSize
    elementType := e.elementType }

end FunctionEntry

namespace EquationEntry

def resolve (t : SymbolTable) (e : EquationEntry) : Loader Equation := do
  let lhs ← e.lhs.toExpr t
  if lhs.toReference?.isNone && lhs.toSymbol?.isNone then
    throw (.invalid (← lhs.text) .notAssignable)
  let rhs ← e.rhs.toExpr t
  return { lhs, rhs, isIncrement := e.isIncrement }

end EquationEntry

namespace ProblemFile

def declareDimensions (t : SymbolTable) (es : List DimensionEntry) :
    Except LoadError SymbolTable :=
  es.foldlM (fun t e => do
    let (declared, t) := t.declareDimension (← e.resolve t)
    declared.map fun _ => t) t

def declareFunctions (grid : Option Grid) (t : SymbolTable) (es : List FunctionEntry) :
    Loader SymbolTable :=
  es.foldlM (fun t e => do
    let (declared, t) := t.declareFunction (← e.resolve t grid)
    declared.map fun _ => t) t

def parse? (text : String) : Option ProblemFile := do ofJson? maxDepth (← Json.parse? text)

def resolve (file : ProblemFile) : Loader Problem := do
  let table ← declareDimensions .empty file.dimensions
  let grid ← (file.grid.mapM (GridEntry.resolve table) : Except LoadError (Option Grid))
  let table ← declareFunctions grid table file.functions
  let equations ← file.equations.mapM (EquationEntry.resolve table)
  let directions ← file.directions.entries.mapM fun (name, direction) => do
    return (← table.dimension name, direction)
  return { name := file.name, table, grid, equations, directions := .ofList directions }

end ProblemFile

namespace Problem

def load (text : String) : Loader Problem :=
  match ProblemFile.parse? text with
  | some file => file.resolve
  | none => throw .unreadable

end Problem

end Stencil
