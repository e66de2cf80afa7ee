import Stencil.Report

/-!
This module contains the program: it reads a problem file, reports what was derived from it, and
tells by its exit code whether that worked.
-/

namespace Stencil

namespace Main

def usage : String :=
  "usage: stencil [-o FILE] [--emit scope|deps|clusters|halo|all] [--mpi] [--no-fusion]\n" ++
    "               [--dse none|basic] [-v] [-q] FILE\n"

def deliver (o : CommandLine.Options) (text : String) : IO UInt32 := do
  match o.output with
  | none =>
    IO.print text
    return 0
  | some path =>
    try
      IO.FS.writeFile path text
      return 0
    catch e =>
      IO.eprint (Report.writeFailure path (toString e))
      return 1

def process (o : CommandLine.Options) (source : String) : IO UInt32 := do
  let outcome := Outcome.ofSource o source
  if outcome.fits then
    IO.eprint outcome.value.messages
    match outcome.value.output with
    | some text => deliver o text
    | none => return 1
  else
    IO.eprintln "integer out of range"
    return 101

def run (args : List String) : IO UInt32 := do
  match CommandLine.parse? args with
  | none =>
    IO.eprint usage
    return 2
  | some o =>
    let source : Except IO.Error String ← (IO.FS.readFile o.input).toBaseIO
    match source with
    | .ok source => process o source
    | .error e =>
      IO.eprint (Report.readFailure o.input (toString e))
      return 1

end Main

end Stencil

def main (args : List String) : IO UInt32 := Stencil.Main.run args
