import Stencil.Equation

/-!
This module contains the flow of data through a list of equations: which equations use the values
that earlier ones compute.
-/

namespace Stencil

def Equation.refersTo (eq : Equation) (lhs : Expr) : Bool :=
  match lhs with
  | .sym s => eq.rhs.valueSymbols.contains s
  | .access f is => eq.rhs.valueReferences.contains ⟨f, is⟩
  | _ => false

structure FlowNode where
  equation : Equation
  /-- The left-hand sides of earlier equations that this one reads. -/
  reads : OrdSet Expr
  /-- The left-hand sides of later equations that read this one. -/
  readBy : OrdSet Expr
  deriving DecidableEq

structure FlowGraph where
  nodes : List FlowNode
  deriving DecidableEq

namespace FlowNode

def lhs (n : FlowNode) : Expr := n.equation.lhs

def addReader (n : FlowNode) (reads : OrdSet Expr) (reader : Expr) : FlowNode :=
  if reads.contains n.lhs then { n with readBy := n.readBy.insert reader () } else n

end FlowNode

namespace FlowGraph

def empty : FlowGraph := ⟨[]⟩

def push (g : FlowGraph) (eq : Equation) : FlowGraph :=
  let reads : OrdSet Expr := .ofList ((g.nodes.map FlowNode.lhs).filter eq.refersTo)
  ⟨g.nodes.map (·.addReader reads eq.lhs) ++ [⟨eq, reads, .empty⟩]⟩

def ofEquations (eqs : List Equation) : FlowGraph := eqs.foldl push empty

def size (g : FlowGraph) : Nat := g.nodes.length

def isEmpty (g : FlowGraph) : Bool := g.nodes.isEmpty

def equations (g : FlowGraph) : List Equation := g.nodes.map (·.equation)

def lastDefinition? (g : FlowGraph) (lhs : Expr) : Option FlowNode :=
  g.nodes.reverse.find? (·.lhs == lhs)

def tensors (g : FlowGraph) : OrdMap GridFunction (List Expr) :=
  g.equations.foldl (fun m eq =>
    match eq.write? with
    | some w => m.alter w.function fun es => es.getD [] ++ [eq.lhs]
    | none => m) .empty

def unknowns (g : FlowGraph) : OrdSet String :=
  let defined := g.equations.filterMap fun eq => eq.lhs.toSymbol?
  let used := g.equations.flatMap fun eq => eq.rhs.valueSymbols
  .ofList (used.filter fun s => !defined.contains s)

def isOwnIndex (d : Dimension) (index : Expr) : Bool :=
  index.symbols.all (· == d.name) && !index.hasReference

def spaceIndices (g : FlowGraph) : List Dimension :=
  let axes := g.equations.flatMap fun eq =>
    match eq.write? with
    | some w => w.function.dimensions.zip w.indices
    | none => []
  ((axes.filter fun a => a.1.isSpace && isOwnIndex a.1 a.2).map (·.1)).eraseDups

/-- The names of the dimensions of time of all arrays that are accessed, and of their roots. -/
def timeIndices (g : FlowGraph) : OrdSet String :=
  let dimensions := g.equations.flatMap fun eq =>
    eq.references.flatMap fun r => r.function.dimensions.filter Dimension.isTime
  .ofList (dimensions.flatMap fun d => [d.name, d.root.name])

def isTimeless (times : OrdSet String) (eq : Equation) : Bool :=
  !(eq.references.any fun r => r.function.dimensions.any Dimension.isTime) &&
    !((eq.lhs.symbols ++ eq.rhs.symbols).any times.contains)

/--
For each of some nodes its left-hand side and whether it computes the same value at all times, given
the same for the nodes before them. This is so if the equation does not depend on time, and if what
it reads does not, where the first definition of what is read counts.
-/
def invariance (times : OrdSet String) (before : List (Expr × Bool)) :
    List FlowNode → List (Expr × Bool)
  | [] => before
  | n :: ns =>
    let ofRead (lhs : Expr) : Bool := ((before.find? (·.1 == lhs)).map (·.2)).getD true
    let isInvariant := isTimeless times n.equation && n.reads.toList.all ofRead
    invariance times (before ++ [(n.lhs, isInvariant)]) ns

def invariances (g : FlowGraph) : List (Expr × Bool) := invariance g.timeIndices [] g.nodes

def isTimeInvariant (g : FlowGraph) : Bool := g.invariances.all (·.2)

def isTimeInvariantAt (g : FlowGraph) (lhs : Expr) : Bool :=
  ((g.invariances.reverse.find? (·.1 == lhs)).map (·.2)).getD true

end FlowGraph

end Stencil
