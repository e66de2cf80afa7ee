import Stencil.Remark
import Stencil.Schedule

/-!
This module contains the remarks on the derivation of a schedule. They follow its steps and end
where it ends.
-/

namespace Stencil

def Reference.remarks (r : Reference) : Checked (List Remark) := do
  let remarks ← r.axes.mapM fun a => do
    match ← a.offset? with
    | some _ => return []
    | none => return [Remark.debug do
        let text ← r.text
        return s!"No constant offset for `{text}` along `{a.dimension.name}`"]
  return remarks.flatten

def Equation.remarks (eq : Equation) : Checked (List Remark) := do
  return (← eq.references.mapM Reference.remarks).flatten

namespace Scope

def undecided (pairs : List (TimedAccess × TimedAccess)) : Analysis (List Remark) := do
  let remarks ← pairs.mapM fun (a, b) => do
    match ← a.compare? b with
    | some _ => return []
    | none => return [Remark.debug do
        let first ← a.text
        let second ← b.text
        return s!"Non-comparable accesses {first} and {second}, assuming a dependence"]
  return remarks.flatten

/-- Reads and writes are compared twice, because each of them may depend on the other one. -/
def remarks (s : Scope) : Analysis (List Remark) := do
  let reads ← undecided ((writeReadPairs s.reads s.writes).map Prod.swap)
  return reads ++ reads ++ (← undecided (writeWritePairs s.writes))

end Scope

namespace Cluster

def placeRemarks (c : Cluster) : List Cluster → Analysis (List Remark)
  | [] => return []
  | earlier :: rest => do
    let remarks ← (← earlier.jointScope c).remarks
    match ← earlier.judge c with
    | .fuse => return remarks
    | .stay atomics =>
      if atomics.toList.isEmpty then
        return remarks
      else
        let names := Dimension.joinNames atomics.toList
        return remarks ++ [.debug do
          return s!"Carried anti-dependences along [{names}] prevent fusion"]
    | .pass => return remarks ++ (← placeRemarks c rest)

def fusionRemarks (earlier : List Cluster) : List Cluster → Analysis (List Remark)
  | [] => return []
  | c :: cs => do
    let remarks ← if c.guards.isEmpty then c.placeRemarks earlier else pure []
    return remarks ++ (← fusionRemarks (← addLatest earlier c) cs)

end Cluster

namespace Halo

/-- The reductions that are not supported, up to the first array that cannot be labelled. -/
def reductionRemarks : List (GridFunction × Dimension × List HaloLabel) → List Remark
  | [] => []
  | (f, d, found) :: rest =>
    match agree f d found with
    | .error _ => []
    | .ok .unsupported => ⟨.warning, pure (warning f d).message⟩ :: reductionRemarks rest
    | .ok _ => reductionRemarks rest

def reachRemarks (data : DataSpace) (f : GridFunction) (ds : List Dimension) : List Remark :=
  (ds.filter fun d => (data.bounds? f d.root).isNone).map fun d => .debug do
    return s!"No data space for `{f.name}` along `{d.name}`, exchanging the full halo"

def localRemarks (f : GridFunction) (space : IterationSpace) (data : DataSpace) (scope : Scope) :
    List Dimension → Checked (List Remark)
  | [] => return []
  | d :: ds => do
    match data.bounds? f d.root, ← (localIndices f [d] space data scope).run with
    | none, _ =>
      let remark := Remark.debug do
        return s!"No data space for `{f.name}` along `{d.name}`, no local index"
      return remark :: (← localRemarks f space data scope ds)
    | some _, .ok _ => localRemarks f space data scope ds
    | some _, .error _ => return []

end Halo

namespace HaloScheme

def entryRemarks (space : IterationSpace) (data : DataSpace) (scope : Scope) :
    List (GridFunction × OrdMap Dimension HaloLabel) → Checked (List Remark)
  | [] => return []
  | (f, labels) :: rest => do
    let reach := Halo.reachRemarks data f (labelled labels .stencil)
    let places := Halo.localRemarks f space data scope (localDimensions labels)
    match ← (exchange? space data scope f labels).run with
    | .ok none => return reach ++ (← entryRemarks space data scope rest)
    | .ok (some _) => return reach ++ (← places) ++ (← entryRemarks space data scope rest)
    | .error _ => return reach ++ (← places)

def remarks (c : Cluster) : Checked (List Remark) := do
  match ← (Scope.ofEquations (c.equations.map (·, c.iterationSpace))).run with
  | .error _ => return []
  | .ok scope =>
    let undecided := ((← scope.remarks.run).toOption).getD []
    match Halo.check scope with
    | .error _ => return undecided
    | .ok _ =>
      let found := (← Halo.observe scope).flatMap fun (f, labels) =>
        labels.entries.map fun (d, ls) => (f, d, ls)
      let reductions := Halo.reductionRemarks found
      match ← (Halo.classify scope).run with
      | .error _ => return undecided ++ reductions
      | .ok (classification, _) =>
        return undecided ++ reductions ++
          (← entryRemarks c.iterationSpace c.dataSpace scope classification.entries)

def remarksOfAll : List Cluster → Checked (List Remark)
  | [] => return []
  | c :: cs => do
    let remarks ← remarks c
    match ← (ofCluster c).run with
    | .ok _ => return remarks ++ (← remarksOfAll cs)
    | .error _ => return remarks

end HaloScheme

namespace Schedule

def analysisRemarks (config : Configuration) (lowered : List LoweredEquation) :
    Analysis (List Remark) := do
  let scope ← Scope.ofLowered lowered
  let counts := s!"Found {scope.flow.length} flow, {scope.anti.length} anti and " ++
    s!"{scope.output.length} output dependences"
  let fusion ←
    if config.fusion then Cluster.fusionRemarks [] (lowered.map Cluster.ofLowered) else pure []
  return (← scope.remarks) ++ .debug (pure counts) :: fusion

def remarks (config : Configuration) (eqs : List Equation)
    (directions : OrdMap Dimension Direction) : Checked (List Remark) := do
  let lowering := (← eqs.mapM Equation.remarks).flatten
  let lowered ← Equation.lowerAll eqs directions
  let analysis := ((← (analysisRemarks config lowered).run).toOption).getD []
  match ← (Cluster.ofProgram config.fusion lowered).run with
  | .error _ => return lowering ++ analysis
  | .ok clusters =>
    let clusters ← config.optimization.optimize clusters
    let built := s!"Built {clusters.length} clusters from {eqs.length} equations"
    let halos ← if config.distributed then HaloScheme.remarksOfAll clusters else pure []
    return lowering ++ .debug (pure s!"Lowered {eqs.length} equations") :: analysis ++
      ⟨.info, pure built⟩ :: halos

end Schedule

end Stencil
