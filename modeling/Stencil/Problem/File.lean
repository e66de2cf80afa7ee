import Stencil.Direction
import Stencil.Problem.Formula

/-!
This module contains problem files: what they declare, how they are read from JSON and how they are
written. Options that are absent are left out when a file is written, and defaults are written out.
-/

namespace Stencil

open Json (required withDefault optional optionalMember)

inductive DimensionKind where
  | plain
  | space
  | time
  | stepping
  | conditional
  deriving DecidableEq

namespace DimensionKind

def name : DimensionKind → String
  | plain => "default"
  | space => "space"
  | time => "time"
  | stepping => "stepping"
  | conditional => "conditional"

def ofName? (s : String) : Option DimensionKind :=
  [plain, space, time, stepping, conditional].find? (·.name == s)

end DimensionKind

structure DimensionEntry where
  name : String
  kind : DimensionKind
  parent : Option String
  factor : Option Int
  deriving DecidableEq

namespace DimensionEntry

def ofJson? (j : Json) : Option DimensionEntry :=
  match j.toFields? ["name", "kind", "parent", "factor"] with
  | some [name, kind, parent, factor] => do
    let name ← required Json.toString? name
    let kind ← withDefault .plain (fun j => j.toName?.bind DimensionKind.ofName?) kind
    let parent ← optional Json.toString? parent
    let factor ← optional Json.toInt? factor
    return { name, kind, parent, factor }
  | _ => none

def toJson (e : DimensionEntry) : Json :=
  .object ([("name", .string e.name), ("kind", .string e.kind.name)] ++
    optionalMember "parent" .string e.parent ++ optionalMember "factor" .int e.factor)

end DimensionEntry

structure GridEntry where
  shape : List Nat
  dimensions : List String
  distributed : List String
  time : Option String
  stepping : Option String
  deriving DecidableEq

namespace GridEntry

def ofJson? (j : Json) : Option GridEntry :=
  match j.toFields? ["shape", "dimensions", "distributed", "time", "stepping"] with
  | some [shape, dimensions, distributed, time, stepping] => do
    let shape ← required (Json.toListOf? Json.toNat?) shape
    let dimensions ← required (Json.toListOf? Json.toString?) dimensions
    let distributed ← withDefault [] (Json.toListOf? Json.toString?) distributed
    let time ← optional Json.toString? time
    let stepping ← optional Json.toString? stepping
    return { shape, dimensions, distributed, time, stepping }
  | _ => none

def toJson (e : GridEntry) : Json :=
  .object ([("shape", .array (e.shape.map fun n : Nat => .int n)),
      ("dimensions", .array (e.dimensions.map .string)),
      ("distributed", .array (e.distributed.map .string))] ++
    optionalMember "time" .string e.time ++ optionalMember "stepping" .string e.stepping)

end GridEntry

inductive FunctionEntry.Kind where
  | dense
  | sparse
  | array
  deriving DecidableEq

namespace FunctionEntry.Kind

def name : FunctionEntry.Kind → String
  | dense => "dense"
  | sparse => "sparse"
  | array => "array"

def ofName? (s : String) : Option FunctionEntry.Kind :=
  [dense, sparse, array].find? (·.name == s)

end FunctionEntry.Kind

namespace ElementType

def name : ElementType → String
  | float32 => "float32"
  | float64 => "float64"
  | int32 => "int32"

def ofName? (s : String) : Option ElementType :=
  [float32, float64, int32].find? (·.name == s)

end ElementType

structure FunctionEntry where
  name : String
  kind : FunctionEntry.Kind
  dimensions : List String
  shape : List Formula
  halo : Option (List (Nat × Nat))
  padding : Option (List (Nat × Nat))
  timeSize : Option Nat
  elementType : ElementType
  onStack : Bool
  /-- Whether the array lives on the grid; by default all arrays but temporaries do. -/
  onGrid : Option Bool

namespace FunctionEntry

def ofJson? (depth : Nat) (j : Json) : Option FunctionEntry :=
  match j.toFields? ["name", "kind", "dimensions", "shape", "halo", "padding", "time_size", "dtype",
    "on_stack", "on_grid"] with
  | some [name, kind, dimensions, shape, halo, padding, timeSize, elementType, onStack,
      onGrid] => do
    let name ← required Json.toString? name
    let kind ← withDefault .dense (fun j => j.toName?.bind Kind.ofName?) kind
    let dimensions ← required (Json.toListOf? Json.toString?) dimensions
    let shape ← required (Json.toListOf? (Formula.read? (depth - 2))) shape
    let halo ← optional (Json.toListOf? (Json.toPair? Json.toNat?)) halo
    let padding ← optional (Json.toListOf? (Json.toPair? Json.toNat?)) padding
    let timeSize ← optional Json.toNat? timeSize
    let elementType ← withDefault .float32 (fun j => j.toName?.bind ElementType.ofName?) elementType
    let onStack ← withDefault false Json.toBool? onStack
    let onGrid ← optional Json.toBool? onGrid
    return { name, kind, dimensions, shape, halo, padding, timeSize, elementType, onStack, onGrid }
  | _ => none

def widthsToJson (table : List (Nat × Nat)) : Json :=
  .array (table.map fun w => .array [.int w.1, .int w.2])

def toJson (e : FunctionEntry) : Json :=
  .object ([("name", .string e.name), ("kind", .string e.kind.name),
      ("dimensions", .array (e.dimensions.map .string)),
      ("shape", .array (Formula.toJsons e.shape))] ++
    optionalMember "halo" widthsToJson e.halo ++
    optionalMember "padding" widthsToJson e.padding ++
    optionalMember "time_size" (fun n : Nat => .int n) e.timeSize ++
    [("dtype", .string e.elementType.name), ("on_stack", .bool e.onStack)] ++
    optionalMember "on_grid" .bool e.onGrid)

end FunctionEntry

structure EquationEntry where
  lhs : Formula
  rhs : Formula
  isIncrement : Bool

namespace EquationEntry

def ofJson? (depth : Nat) (j : Json) : Option EquationEntry :=
  match j.toFields? ["lhs", "rhs", "increment"] with
  | some [lhs, rhs, increment] => do
    let lhs ← required (Formula.read? (depth - 1)) lhs
    let rhs ← required (Formula.read? (depth - 1)) rhs
    let isIncrement ← withDefault false Json.toBool? increment
    return { lhs, rhs, isIncrement }
  | _ => none

def toJson (e : EquationEntry) : Json :=
  .object [("lhs", e.lhs.toJson), ("rhs", e.rhs.toJson), ("increment", .bool e.isIncrement)]

end EquationEntry

namespace Direction

def name : Direction → String
  | forward => "forward"
  | backward => "backward"

def ofName? (s : String) : Option Direction := [forward, backward].find? (·.name == s)

end Direction

structure ProblemFile where
  name : Option String
  /-- The dimensions; a parent has to come before the dimensions that refer to it. -/
  dimensions : List DimensionEntry
  grid : Option GridEntry
  functions : List FunctionEntry
  directions : OrdMap String Direction
  equations : List EquationEntry

namespace ProblemFile

def directionsOfJson? : Json → Option (OrdMap String Direction)
  | .object members => do
    let directions ← members.mapM fun (name, j) => do
      return (name, ← Direction.ofName? (← j.toName?))
    return .ofList directions
  | _ => none

def ofJson? (depth : Nat) (j : Json) : Option ProblemFile :=
  match j.toFields? ["name", "dimensions", "grid", "functions", "directions", "equations"] with
  | some [name, dimensions, grid, functions, directions, equations] => do
    let name ← optional Json.toString? name
    let dimensions ← required (Json.toListOf? DimensionEntry.ofJson?) dimensions
    let grid ← optional GridEntry.ofJson? grid
    let functions ← required (Json.toListOf? (FunctionEntry.ofJson? (depth - 2))) functions
    let directions ← withDefault .empty directionsOfJson? directions
    let equations ← required (Json.toListOf? (EquationEntry.ofJson? (depth - 2))) equations
    return { name, dimensions, grid, functions, directions, equations }
  | _ => none

def toJson (p : ProblemFile) : Json :=
  .object (optionalMember "name" .string p.name ++
    [("dimensions", .array (p.dimensions.map DimensionEntry.toJson))] ++
    optionalMember "grid" GridEntry.toJson p.grid ++
    [("functions", .array (p.functions.map FunctionEntry.toJson)),
      ("directions", .object (p.directions.entries.map fun e => (e.1, .string e.2.name))),
      ("equations", .array (p.equations.map EquationEntry.toJson))])

def maxDepth : Nat := 127

/-- Reads a JSON value that need not have been a text. -/
def decode? (j : Json) : Option ProblemFile := ofJson? j.depth j

end ProblemFile

end Stencil
