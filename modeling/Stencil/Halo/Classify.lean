import Stencil.Diagnostic
import Stencil.Halo.Basic
import Stencil.Scope

/-!
This module contains the decision about what has to be exchanged of which array along which
dimension, and the conditions under which this can be decided.
-/

namespace Stencil

abbrev HaloAnalysis := ExceptT HaloError Checked

namespace Halo

def checkDependence (d : Dependence) : Except HaloError Unit :=
  if d.function.isTensor then
    match d.function.grid with
    | none => .error (.missingGrid d.function.name)
    | some grid =>
      match d.cause with
      | none => .ok ()
      | some cause =>
        if !d.isIndirect && grid.isDistributed cause then .error (.sequential cause) else .ok ()
  else
    .ok ()

def check (s : Scope) : Except HaloError Unit := s.dependences.forM checkDependence

def label? (grid : Grid) (r : TimedAccess) (d : Dimension) : Checked (Option HaloLabel) := do
  if ← r.access.isAffine d then
    return some (if grid.isDistributed d then .stencil else .none)
  else if r.isIncrement then
    return some .unsupported
  else if ← r.access.isIrregular d then
    return if grid.isDistributed d then some .full else none
  else
    return none

def labels (grid : Grid) (reads : List TimedAccess) : Checked (OrdMap Dimension (List HaloLabel)) :=
  (reads.flatMap fun r => r.dimensions.map fun d => (r, d)).foldlM (fun m e => do
    match ← label? grid e.1 e.2 with
    | some l => return m.alter e.2 fun ls => ls.getD [] ++ [l]
    | none => return m) .empty

def agree (f : GridFunction) (d : Dimension) (found : List HaloLabel) :
    Except HaloError HaloLabel :=
  match HaloLabel.all.filter found.contains with
  | [l] => .ok l
  | ls => .error (.inconsistent f.name d ls)

abbrev Classification := OrdMap GridFunction (OrdMap Dimension HaloLabel)

def warning (f : GridFunction) (d : Dimension) : Diagnostic where
  severity := .warning
  message :=
    s!"Distributed local-reductions over `{f.name}` along Dimension `{d.name}` detected."
  notes := ["the halo exchange is left to the user"]

def observe (s : Scope) : Checked (List (GridFunction × OrdMap Dimension (List HaloLabel))) :=
  (s.reads.entries.filterMap fun e =>
    if e.1.isTensor then e.1.grid.map fun grid => (e.1, grid, e.2) else none).mapM fun e => do
      return (e.1, ← labels e.2.1 e.2.2)

def agreeAll (f : GridFunction) (found : OrdMap Dimension (List HaloLabel)) :
    Except HaloError (OrdMap Dimension HaloLabel) := do
  return .ofList (← found.entries.mapM fun e => do return (e.1, ← agree f e.1 e.2))

def classify (s : Scope) : HaloAnalysis (Classification × List Diagnostic) := do
  let found ← observe s
  let labelled ← found.mapM fun e => do return (e.1, ← agreeAll e.1 e.2)
  let warnings := labelled.flatMap fun e =>
    (e.2.filter fun _ l => l == .unsupported).keys.map (warning e.1)
  return (.ofList labelled, warnings)

end Halo

end Stencil
