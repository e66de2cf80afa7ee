import Stencil.Access

/-!
This module contains the dependences between accesses to the same array.
-/

namespace Stencil

inductive DependenceKind where
  | flow
  | anti
  | output
  deriving DecidableEq

def DependenceKind.text : DependenceKind → String
  | flow => "RAW"
  | anti => "WAR"
  | output => "WAW"

structure Dependence where
  source : TimedAccess
  sink : TimedAccess
  kind : DependenceKind
  /-- How much later in the iteration the source comes. -/
  distance : OffsetVector
  cause : Option Dimension
  /-- Whether the dependence goes through an irregular index along its cause. -/
  isIndirect : Bool
  deriving DecidableEq

namespace Dependence

/-- The first dimension with a positive distance; an unknown distance may be positive. -/
def firstCause (dimensions : List Dimension) (distance : OffsetVector) : Option Dimension :=
  ((dimensions.zip distance).find? fun e =>
    match e.2.toInt? with
    | some i => decide (0 < i)
    | none => true).map (·.1)

def isIrregularAlong (source sink : TimedAccess) (d : Dimension) : Checked Bool := do
  let modes := (← source.access.regularity).zip (← sink.access.regularity)
  return (source.dimensions.zip modes).any fun e => e.1 == d && !e.2.1 && !e.2.2

def between (kind : DependenceKind) (source sink : TimedAccess) : Analysis Dependence := do
  let distance ← source.distance sink
  let cause := firstCause source.dimensions distance
  let isIndirect ←
    match cause with
    | some d => liftM (isIrregularAlong source sink d)
    | none => pure false
  return { source, sink, kind, distance, cause, isIndirect }

def function (d : Dependence) : GridFunction := d.source.function

def isCarried (d : Dependence) : Checked Bool := do
  return (← d.distance.compareScalar? (.ofInt 0)).all (· == .gt)

def isCarriedBy (d : Dependence) (dim : Dimension) : Bool := d.cause == some dim

def isIndependent (d : Dependence) : Bool := d.distance.isZero

def isIndependentOf (d : Dependence) (dim : Dimension) : Bool := d.cause != some dim

def isInPlace (d : Dependence) : Bool :=
  d.isIndependent && d.source.timestamp == d.sink.timestamp

def isIncrement (d : Dependence) : Bool := d.source.isIncrement && d.sink.isIncrement

def causes (ds : List Dependence) : OrdSet Dimension := .ofList (ds.filterMap (·.cause))

def functions (ds : List Dependence) : OrdSet GridFunction := .ofList (ds.map function)

def carried (ds : List Dependence) : Checked (List Dependence) := ds.filterM isCarried

def project (f : GridFunction) (ds : List Dependence) : List Dependence :=
  ds.filter (·.function == f)

def difference (ds es : List Dependence) : List Dependence := ds.filter fun d => !es.contains d

def text (d : Dependence) : Checked String := do
  return (← d.source.text) ++ " -> " ++ (← d.sink.text)

def description (d : Dependence) : Checked String := do
  let distance ← OffsetVector.text d.distance
  let cause := (d.cause.map Dimension.name).getD "-"
  return (← d.text) ++ " [" ++ d.kind.text ++ "] distance=" ++ distance ++ " cause=" ++ cause

end Dependence

end Stencil
