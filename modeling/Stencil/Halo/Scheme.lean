import Stencil.Cluster
import Stencil.Halo.Classify

/-!
This module contains halo schemes: how much of which arrays has to be exchanged before some
equations are executed.
-/

namespace Stencil

namespace Halo

def ofWidths (d : Dimension) (left right : Int) : List Halo :=
  (if 0 < left then [⟨d, .left, left⟩] else []) ++ (if 0 < right then [⟨d, .right, right⟩] else [])

/--
How far an array is read beyond both ends of its domain along `d`. If this is not known, the whole
halo counts.
-/
def reach (space : Option DataSpace) (f : GridFunction) (d : Dimension) : Checked (Int × Int) :=
  match space.bind fun s => s.bounds? f d.root with
  | some bounds => do
    let (left, right) ← f.offsetAlong d
    return (← Word.sub (Word.toSigned left) bounds.lower,
      ← Word.sub bounds.upper (Word.toSigned right))
  | none =>
    let (left, right) := f.haloAlong d
    pure (Word.toSigned left, Word.toSigned right)

def along (space : Option DataSpace) (f : GridFunction) (ds : List Dimension) :
    Checked (List Halo) := do
  let halos ← ds.mapM fun d => do
    let (left, right) ← reach space f d
    return ofWidths d left right
  return halos.flatten

def findSlot (modulo : Nat) (origin : Expr) : List Slot → Checked (Option Slot)
  | [] => pure none
  | s :: ss => do
    if s.modulo = modulo then
      if ← s.isFor origin then return some s else findSlot modulo origin ss
    else
      findSlot modulo origin ss

/--
The last index along `d` that is touched in the direction of iteration, or the last but one if `d`
carries a dependence.
-/
def lastIndex (space : IterationSpace) (isCarried : Bool) (bounds : Bounds) (d : Dimension) :
    Checked Int :=
  let shift := if isCarried then 1 else 0
  match space.direction d with
  | .forward => Word.sub bounds.upper shift
  | .backward => Word.add bounds.lower shift

def localIndex (space : IterationSpace) (f : GridFunction) (d : Dimension) (last : Int) :
    HaloAnalysis Expr := do
  if d.isStepping then
    let origin ← Expr.plus (.ofDimension d) (.ofInt last)
    let modulo := f.timeSize.getD 0
    match ← findSlot modulo origin (space.slotsOf d) with
    | some slot => return .sym slot.name
    | none => throw (.missingSlot d modulo (← origin.text))
  else
    (← Expr.plus (.ofDimension d.root) (.ofInt last)).simplify

def localIndices (f : GridFunction) (ds : List Dimension) (space : IterationSpace)
    (data : DataSpace) (scope : Scope) : HaloAnalysis (OrdMap Dimension Expr) :=
  let dependences := Dependence.project f scope.dependences
  ds.foldlM (fun m d => do
    match data.bounds? f d.root with
    | none => return m
    | some bounds =>
      let last ← lastIndex space (dependences.any (·.isCarriedBy d)) bounds d
      return m.insert d (← localIndex space f d last)) .empty

end Halo

structure HaloScheme where
  entries : OrdMap GridFunction HaloEntry
  diagnostics : List Diagnostic
  deriving DecidableEq

namespace HaloScheme

def labelled (labels : OrdMap Dimension HaloLabel) (l : HaloLabel) : List Dimension :=
  (labels.filter fun _ l' => l' == l).keys

def localDimensions (labels : OrdMap Dimension HaloLabel) : List Dimension :=
  (labelled labels .none).filter fun d => !d.isSpace

def exchange? (space : IterationSpace) (data : DataSpace) (scope : Scope) (f : GridFunction)
    (labels : OrdMap Dimension HaloLabel) : HaloAnalysis (Option HaloEntry) := do
  let stencil ← Halo.along (some data) f (labelled labels .stencil)
  let full ← Halo.along none f (labelled labels .full)
  match stencil ++ full with
  | [] => return none
  | halos =>
    return some ⟨← Halo.localIndices f (localDimensions labels) space data scope, halos⟩

def ofEquations (eqs : List Equation) (space : IterationSpace) (data : DataSpace) :
    HaloAnalysis HaloScheme := do
  let scope ← (Scope.ofEquations (eqs.map (·, space))).adapt HaloError.access
  Halo.check scope
  let (classification, diagnostics) ← Halo.classify scope
  let entries ← classification.entries.mapM fun e => do
    return (e.1, ← exchange? space data scope e.1 e.2)
  let entries := entries.filterMap fun e => e.2.map fun entry => (e.1, entry)
  return ⟨.ofList entries, diagnostics⟩

def ofCluster (c : Cluster) : HaloAnalysis HaloScheme :=
  ofEquations c.equations c.iterationSpace c.dataSpace

def ofLowered (es : List LoweredEquation) : HaloAnalysis HaloScheme :=
  ofEquations (es.map (·.equation)) (.union (es.map (·.iterationSpace)))
    (.union (es.map (·.dataSpace)))

def isEmpty (s : HaloScheme) : Bool := s.entries.isEmpty

def functions (s : HaloScheme) : List GridFunction := s.entries.keys

def masks (s : HaloScheme) : OrdMap GridFunction HaloMask :=
  s.entries.filterMap fun f e => some (e.mask f)

def text (s : HaloScheme) : String :=
  "HaloScheme<" ++ ",".intercalate (s.functions.map (·.name)) ++ ">"

end HaloScheme

end Stencil
