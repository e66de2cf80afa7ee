import Stencil.Tuning.Operator

/-!
This module contains operators whose runs are simulated: they touch their outputs, and their times
and failures are determined by their integer arguments. They show what the tuner makes of an
operator without compiling one.
-/

namespace Stencil.Tuning

structure Term where
  argument : String
  target : Int
  weight : Seconds

structure Region where
  name : String
  base : Seconds
  terms : List Term

structure Fault where
  argument : String
  value : Int
  message : String

structure Script where
  outputs : List String
  faults : List Fault
  regions : List Region
  profilerName : String

namespace Term

/-- The distance of the argument from the target. A missing argument counts as zero. -/
def distance (args : Arguments) (t : Term) : Checked Seconds := do
  let difference ← Word.sub ((args.int? t.argument).getD 0) t.target
  return .number (Float.ofInt (← Word.signed difference.natAbs))

end Term

namespace Region

def seconds (args : Arguments) (r : Region) : Checked Seconds :=
  r.terms.foldlM (fun t (term : Term) => do
    return t.add ((← term.distance args).mul term.weight)) r.base

end Region

namespace Script

/-- Adds one to every element of the outputs, up to the first one that is no buffer. -/
def touch (args : Arguments) (s : Store Seconds) :
    List String → Except RunError Unit × Store Seconds
  | [] => (.ok (), s)
  | name :: names =>
    match args.find? name with
    | some (.buffer i) => touch args (s.modifyBuffer i (·.map (· + 1.0))) names
    | _ => (.error (.missingArgument name), s)

def record (script : Script) (args : Arguments) (s : Store Seconds) : Checked (Store Seconds) :=
  match args.find? script.profilerName with
  | some (.profiler i) => do
    let times ← script.regions.mapM fun r => do return (r.name, ← r.seconds args)
    return s.modifyProfile i fun p => times.foldl (fun p t => p.record t.1 t.2) p
  | _ => pure s

def run (script : Script) (args : Arguments) (s : Store Seconds) :
    Checked (Except RunError Unit × Store Seconds) :=
  match touch args s script.outputs with
  | (.error e, s) => pure (.error e, s)
  | (.ok _, s) =>
    match script.faults.find? fun f => args.int? f.argument == some f.value with
    | some f => pure (.error (.failed f.message), s)
    | none => do return (.ok (), ← script.record args s)

def toOperator (script : Script) (loops : List Loop) (functions : List GridFunction) :
    Operator Seconds where
  loops
  outputs := script.outputs
  functions
  profilerName := script.profilerName
  run := script.run

end Script

end Stencil.Tuning
