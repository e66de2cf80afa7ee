import Stencil.DataSpace
import Stencil.Equation
import Stencil.IterationSpace

/-!
This module contains lowered equations: equations together with the loops around them, the parts of
arrays that they touch, and the conditions under which they are executed.
-/

namespace Stencil

inductive Guard where
  | divisible (dimension : Dimension) (factor : Int)
  | condition (e : Expr)
  deriving DecidableEq

def Guard.text : Guard → Checked String
  | divisible d factor => pure (d.name ++ s!" % {factor} == 0")
  | condition e => e.text

structure Axis where
  function : GridFunction
  dimension : Dimension
  index : Expr

def Reference.axes (r : Reference) : List Axis :=
  (r.function.dimensions.zip r.indices).map fun e => ⟨r.function, e.1, e.2⟩

def Equation.axes (eq : Equation) : List Axis := eq.references.flatMap Reference.axes

namespace Axis

/-- The constant `k`, if the index is `d + k` with the dimension `d`. -/
def offset? (a : Axis) : Checked (Option Int) := do
  match ← Affine.ofExpr a.index with
  | none => return none
  | some form => return (← form.sub (.ofSymbol a.dimension.name)).toInt?

def loop? (a : Axis) : Option Dimension :=
  if a.index.freeSymbols.contains a.dimension.name then some a.dimension.root else none

def guard? (a : Axis) : Option (Dimension × Guard) :=
  match a.dimension with
  | .conditional _ parent factor => some (parent.root, .divisible parent.root factor)
  | _ => none

def touch (s : DataSpace) (a : Axis) : Checked DataSpace := do
  match ← a.offset? with
  | none => return s
  | some k =>
    let (left, right) ← a.function.offsetAlong a.dimension
    let lower ← Word.add (Word.toSigned left) k
    let upper ← Word.add (Word.toSigned right) k
    return s.extend a.function a.dimension.root ⟨lower, upper⟩

end Axis

namespace Slot

def anyFor (modulo : Nat) (origin : Expr) : List Slot → Checked Bool
  | [] => pure false
  | s :: ss => do
    if s.modulo = modulo then
      if ← s.isFor origin then return true else anyFor modulo origin ss
    else
      anyFor modulo origin ss

def register (slots : OrdMap Dimension (List Slot)) (a : Axis) :
    Checked (OrdMap Dimension (List Slot)) :=
  match a.function.timeSize, a.dimension.isStepping with
  | some modulo, true => do
    let origin ← a.index.simplify
    let known := (slots.find? a.dimension.root).getD []
    if ← anyFor modulo origin known then
      return slots
    else
      let name := a.dimension.name ++ toString known.length
      return slots.insert a.dimension.root (known ++ [⟨name, a.dimension, origin, modulo⟩])
  | _, _ => pure slots

def collect (eqs : List Equation) : Checked (OrdMap Dimension (List Slot)) :=
  (eqs.flatMap Equation.axes).foldlM register .empty

end Slot

structure LoweredEquation where
  equation : Equation
  iterationSpace : IterationSpace
  dataSpace : DataSpace
  guards : OrdMap Dimension Guard
  deriving DecidableEq

namespace Equation

def loops (eq : Equation) : List Dimension := (eq.axes.filterMap Axis.loop?).eraseDups

def guards (eq : Equation) : OrdMap Dimension Guard := .ofList (eq.axes.filterMap Axis.guard?)

def dataSpace (eq : Equation) : Checked DataSpace := eq.axes.foldlM Axis.touch .empty

/--
The space that an equation is executed in. All given directions are kept, so that equations agree
about the dimensions that they do not iterate over.
-/
def iterationSpace (slots : OrdMap Dimension (List Slot))
    (directions : OrdMap Dimension Direction) (eq : Equation) : IterationSpace where
  intervals := eq.loops.map fun d => ⟨d, ⟨0, 0⟩⟩
  slots := slots.filter fun d _ => eq.loops.contains d
  directions := eq.loops.foldl (fun m d => m.alter d fun dir => dir.getD .forward)
    (.ofList (directions.entries.map fun e => (e.1.root, e.2)))

def lower (slots : OrdMap Dimension (List Slot)) (directions : OrdMap Dimension Direction)
    (eq : Equation) : Checked LoweredEquation := do
  return ⟨eq, eq.iterationSpace slots directions, ← eq.dataSpace, eq.guards⟩

/-- Lowers the equations of a program; the slots of ring buffers are shared by all of them. -/
def lowerAll (eqs : List Equation) (directions : OrdMap Dimension Direction) :
    Checked (List LoweredEquation) := do
  let slots ← Slot.collect eqs
  eqs.mapM (lower slots directions)

end Equation

end Stencil
