import Stencil.Affine
import Stencil.Direction
import Stencil.Expr.Text
import Stencil.Interval

/-!
This module contains iteration spaces: the loops around an equation, the outermost one first, their
directions, and the slots of ring buffers that are in use.
-/

namespace Stencil

/-- A scalar that holds the position of a logical index in a ring buffer. -/
structure Slot where
  name : String
  stepping : Dimension
  origin : Expr
  modulo : Nat
  deriving DecidableEq

namespace Slot

/-- Whether two indices are the same, compared by their affine forms if they have such. -/
def sameOrigin (a b : Expr) : Checked Bool := do
  match ← Affine.ofExpr a, ← Affine.ofExpr b with
  | some x, some y => return x = y
  | _, _ => return a = b

def isFor (s : Slot) (origin : Expr) : Checked Bool := sameOrigin s.origin origin

def text (s : Slot) : Checked String := do
  return s.name ++ " = (" ++ (← s.origin.text) ++ s!") % {s.modulo}"

end Slot

structure IterationSpace where
  intervals : List Interval
  /-- The slots in use, by the root of the dimension that they index. -/
  slots : OrdMap Dimension (List Slot)
  /-- The directions of roots; a root without one is iterated forward. -/
  directions : OrdMap Dimension Direction
  deriving DecidableEq

namespace IterationSpace

def empty : IterationSpace := ⟨[], .empty, .empty⟩

def ofDirections (directions : OrdMap Dimension Direction) : IterationSpace :=
  ⟨[], .empty, directions⟩

def dimensions (s : IterationSpace) : List Dimension := s.intervals.map (·.dimension)

def contains (s : IterationSpace) (d : Dimension) : Bool := s.dimensions.contains d.root

def direction (s : IterationSpace) (d : Dimension) : Direction :=
  (s.directions.find? d.root).getD .forward

def slotsOf (s : IterationSpace) (d : Dimension) : List Slot := (s.slots.find? d.root).getD []

def isCompatible (s t : IterationSpace) : Bool :=
  s.dimensions == t.dimensions && s.dimensions.all fun d => s.direction d == t.direction d

def meet (s t : IterationSpace) : IterationSpace where
  intervals := s.intervals.filterMap fun i =>
    (t.intervals.find? fun j => j.dimension == i.dimension).map i.meet
  slots := s.slots.filterMap fun d ss =>
    (t.slots.find? d).map fun ts => ss.filter fun x => ts.contains x
  directions := s.directions.filter fun d dir => t.directions.find? d == some dir

/-- What all spaces of a list have in common, with the loops in the order of the first space. -/
def intersection : List IterationSpace → IterationSpace
  | [] => empty
  | s :: ss => ss.foldl meet s

/-- Widens the first interval along the dimension of `i`, or adds `i` at the end. -/
def widen (i : Interval) : List Interval → List Interval
  | [] => [i]
  | j :: js => if j.dimension = i.dimension then j.hull i :: js else j :: widen i js

def addSlots (ss ts : List Slot) : List Slot :=
  ts.foldl (fun ss t => if ss.contains t then ss else ss ++ [t]) ss

/-- The least space around two spaces, in which the directions of the first one count. -/
def join (s t : IterationSpace) : IterationSpace where
  intervals := t.intervals.foldl (fun is i => widen i is) s.intervals
  slots := t.slots.entries.foldl (fun m e => m.alter e.1 fun ss => addSlots (ss.getD []) e.2)
    s.slots
  directions := t.directions.entries.foldl (fun m e => m.alter e.1 fun dir => dir.getD e.2)
    s.directions

def union (ss : List IterationSpace) : IterationSpace := ss.foldl join empty

def text (s : IterationSpace) : String :=
  let loops := s.intervals.map fun i => i.text ++ (s.direction i.dimension).text
  "<" ++ " ".intercalate loops ++ ">"

end IterationSpace

end Stencil
