import Stencil.Tuning.Footprint
import Stencil.Tuning.Results

/-!
This module contains the tuner, which runs an operator once with each block shape and keeps the
fastest one. Runs work on copies of what the operator writes, and the sequential loop is cut short
for them. If there is nothing to choose from, the arguments stay as they are.
-/

namespace Stencil.Tuning

variable {τ : Type}

structure Bench (τ : Type) where
  /-- The arguments of the next run, up to its block sizes and its profiler. -/
  arguments : Arguments
  store : Store τ
  results : Results τ
  runs : List Arguments

structure Tuned (τ : Type) where
  arguments : Arguments
  store : Store τ
  results : Results τ
  runs : List Arguments

def squeeze (l : Loop) (squeezer : Int) : Checked Int := do
  let steps ← l.extent l.start squeezer
  if steps < 0 then
    Word.add (← Word.sub squeezer steps) 1
  else
    return steps

def bindSteps (l : Loop) (steps : Int) (args : Arguments) : Arguments :=
  let args := args.insert (sizeName l.dimension) (.int steps)
  match l.dimension with
  | .stepping _ parent => args.insert (sizeName parent) (.int steps)
  | _ => args

def shorten (op : Operator τ) (o : Options) (args : Arguments) :
    Checked (Option (Arguments × Int)) :=
  match op.loops.filter (·.isSequential) with
  | [] => pure (some (args, 1))
  | [l] => do
    let steps ← squeeze l o.squeezer
    return some (bindSteps l steps args, steps)
  | _ => pure none

def limits (args : Arguments) : List Parameter → Checked (Option (List Int))
  | [] => pure (some [])
  | p :: ps => do
    match ← p.limit? args with
    | some limit => return (← limits args ps).map (limit :: ·)
    | none => return none

structure Launch (τ : Type) where
  arguments : Arguments
  store : Store τ
  verdict : Verdict τ

def Operator.launch [Elapsed τ] (op : Operator τ) (args : Arguments) (store : Store τ) :
    Checked (Launch τ) := do
  let (profiler, store) := op.setup store
  let args : Arguments := args.insert op.profilerName profiler
  let (outcome, store) ← op.run args store
  let verdict := match outcome with
    | .ok _ => Verdict.timed ((args.elapsed? store op.profilerName).getD Elapsed.zero)
    | .error e => .skipped (.failed e.message)
  return ⟨args, store, verdict⟩

namespace Bench

def run [Elapsed τ] (op : Operator τ) (shape : BlockShape) (b : Bench τ) : Checked (Bench τ) := do
  let l ← op.launch b.arguments b.store
  return ⟨l.arguments, l.store, b.results.add shape l.verdict, b.runs ++ [l.arguments]⟩

def skip (shape : BlockShape) (reason : SkipReason) (b : Bench τ) : Bench τ :=
  { b with results := b.results.add shape (.skipped reason) }

def attempt [Elapsed τ] (op : Operator τ) (o : Options) (limits : List Int) (b : Bench τ)
    (shape : BlockShape) : Checked (Bench τ) :=
  if shape.exceeds limits then
    return b.skip shape .tooLarge
  else do
    let b := { b with arguments := shape.bind b.arguments }
    match ← stackFootprint op.functions b.arguments with
    | none => return b.skip shape .unknownStackSize
    | some bytes =>
      if o.stackLimit < bytes then
        return b.skip shape (.stackOverflow bytes)
      else
        b.run op shape

def attemptAll [Elapsed τ] (op : Operator τ) (o : Options) (limits : List Int) (b : Bench τ)
    (shapes : List BlockShape) : Checked (Bench τ) :=
  shapes.foldlM (attempt op o limits) b

def choose [Elapsed τ] (op : Operator τ) (args : Arguments) (b : Bench τ) : Tuned τ :=
  match b.results.best? with
  | none => ⟨args, b.store, b.results, b.runs⟩
  | some best =>
    let (profiler, store) := op.setup b.store
    ⟨(best.shape.bind args).insert op.profilerName profiler, store, b.results, b.runs⟩

end Bench

/--
Sets the block sizes of an operator to those with which it runs fastest. The arguments stay as they
are if tuning is off, if there is no parameter, if there are several sequential loops, if the
largest block of a parameter is not known, or if no run succeeds.
-/
def tune [Elapsed τ] (op : Operator τ) (o : Options) (ps : List Parameter) (args : Arguments)
    (store : Store τ) : Checked (Tuned τ) :=
  if o.mode = .off ∨ ps = [] then
    return ⟨args, store, .empty, []⟩
  else do
    let (copied, store) := args.copyOutputs op.outputs store
    match ← shorten op o copied with
    | none => return ⟨args, store, .empty, []⟩
    | some (short, steps) =>
      match ← limits short ps with
      | none => return ⟨args, store, ⟨[], steps⟩, []⟩
      | some limits =>
        let shapes ← BlockShape.candidates ps limits o
        let b ← Bench.attemptAll op o limits ⟨short, store, ⟨[], steps⟩, []⟩ shapes
        return b.choose op args

end Stencil.Tuning
