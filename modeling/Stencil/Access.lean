import Stencil.IterationSpace
import Stencil.OffsetVector

/-!
This module contains array accesses. A timed access also has a place in the order of execution: the
position of its equation in the program, and the directions of the loops over the dimensions of its
array.
-/

namespace Stencil

inductive AccessMode where
  | read
  | write
  deriving DecidableEq

structure Access where
  function : GridFunction
  mode : AccessMode
  indices : OffsetVector
  deriving DecidableEq

namespace Access

def ofReference (mode : AccessMode) (r : Reference) : Access := ⟨r.function, mode, r.indices⟩

def isRead (a : Access) : Bool := a.mode == .read

def isWrite (a : Access) : Bool := a.mode == .write

def rank (a : Access) : Nat := a.indices.length

def dimensions (a : Access) : List Dimension := a.function.dimensions

/-- Whether an index is an affine form of its own dimension only. -/
def isRegularIndex (d : Dimension) (index : Expr) : Checked Bool := do
  match ← Affine.ofExpr index with
  | some form => return form.symbols.all (· == d.name)
  | none => return false

def regularity (a : Access) : Checked (List Bool) :=
  (a.dimensions.zip a.indices).mapM fun e => isRegularIndex e.1 e.2

def isRegularAlong? (a : Access) (d : Dimension) : Checked (Option Bool) :=
  match a.function.indexOf? d with
  | none => pure none
  | some i =>
    match a.indices[i]? with
    | some index => some <$> isRegularIndex d index
    | none => .guarded false none

def isAffine (a : Access) (d : Dimension) : Checked Bool := do
  return (← a.isRegularAlong? d) == some true

def isIrregular (a : Access) (d : Dimension) : Checked Bool := do
  return (← a.isRegularAlong? d) == some false

def isRegular (a : Access) : Checked Bool := do return (← a.regularity).all id

def checkDimensions (a b : Access) : Analysis Unit :=
  if a.dimensions = b.dimensions then pure () else throw (.dimensions a.dimensions b.dimensions)

def distance (a b : Access) : Analysis OffsetVector := do
  a.checkDimensions b
  a.indices.sub b.indices

def compare? (a b : Access) : Analysis (Option Ordering) := do
  a.checkDimensions b
  a.indices.compare? b.indices

def samePoint (a b : Access) : Analysis Bool := do
  a.checkDimensions b
  if a.function = b.function then
    return (← a.indices.sub b.indices).isZero
  else
    return false

def text (a : Access) : Checked String := do
  let mode := if a.isRead then "R" else "W"
  return mode ++ "<" ++ a.function.name ++ ",[" ++ ", ".intercalate (← Expr.texts a.indices) ++ "]>"

end Access

structure TimedAccess where
  access : Access
  timestamp : Nat
  /-- The direction of the loop over each dimension of the array. -/
  directions : List Direction
  isIncrement : Bool
  deriving DecidableEq

namespace TimedAccess

def ofReference (space : IterationSpace) (timestamp : Nat) (isIncrement : Bool)
    (mode : AccessMode) (r : Reference) : TimedAccess where
  access := .ofReference mode r
  timestamp := timestamp
  directions := r.function.dimensions.map space.direction
  isIncrement := isIncrement

def function (a : TimedAccess) : GridFunction := a.access.function

def dimensions (a : TimedAccess) : List Dimension := a.access.dimensions

def indices (a : TimedAccess) : OffsetVector := a.access.indices

def check (a b : TimedAccess) : Analysis Unit := do
  a.access.checkDimensions b.access
  if a.directions = b.directions ∧ a.access.rank = b.access.rank then
    return ()
  else
    throw (.directions a.directions b.directions)

/-- The difference of two indices, positive if the first one comes later in the direction. -/
def difference (a b : Expr) : Direction → Checked Expr
  | .forward => a.difference b
  | .backward => b.difference a

/-- The distance of two accesses, positive where the first one comes later in the iteration. -/
def distance (a b : TimedAccess) : Analysis OffsetVector := do
  a.check b
  liftM (((a.indices.zip b.indices).zip a.directions).mapM fun e => difference e.1.1 e.1.2 e.2)

def distanceUpTo (a b : TimedAccess) (d : Dimension) : Analysis OffsetVector :=
  match a.function.indexOf? d with
  | none => throw (.notIndexed d a.function.name)
  | some i => do return (← a.distance b).take (i + 1)

def compare? (a b : TimedAccess) : Analysis (Option Ordering) := do
  return (← a.distance b).sign?

def samePoint (a b : TimedAccess) : Analysis Bool := do
  return (← a.access.samePoint b.access) && a.directions == b.directions

def text (a : TimedAccess) : Checked String := a.access.text

end TimedAccess

end Stencil
