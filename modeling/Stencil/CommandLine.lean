import Stencil.Optimization
import Stencil.Remark

/-!
This module contains the arguments of the command line. Options may stand before and after the input
file; after `--` everything is a file name. What may be given once must not be given twice.
-/

namespace Stencil

inductive Emission where
  | scope
  | dependences
  | clusters
  | halos
  | all
  deriving DecidableEq

namespace Emission

def ofName? (s : String) : Option Emission :=
  match s with
  | "scope" => some scope
  | "deps" => some dependences
  | "clusters" => some clusters
  | "halo" => some halos
  | "all" => some all
  | _ => none

end Emission

namespace CommandLine

structure Options where
  input : String
  output : Option String
  emission : Emission
  distributed : Bool
  fusion : Bool
  optimization : Optimization
  verbosity : Nat
  quiet : Bool
  deriving DecidableEq

/-- The remarks to show. Those who want quiet see no warnings, whatever else they ask for. -/
def Options.level (o : Options) : Level :=
  if o.quiet then
    .error
  else
    match o.verbosity with
    | 0 => .warning
    | 1 => .info
    | _ => .debug

inductive Switch where
  | distributed
  | noFusion
  | verbose
  | quiet

inductive Parameter where
  | output
  | emission
  | optimization

structure Given where
  input : Option String
  output : Option String
  emission : Option Emission
  optimization : Option Optimization
  distributed : Bool
  noFusion : Bool
  quiet : Bool
  verbosity : Nat

def Switch.ofName? (s : String) : Option Switch :=
  match s with
  | "mpi" => some distributed
  | "no-fusion" => some noFusion
  | "verbose" => some verbose
  | "quiet" => some quiet
  | _ => none

def Switch.ofChar? (c : Char) : Option Switch :=
  if c == 'v' then some verbose else if c == 'q' then some quiet else none

def Parameter.ofName? (s : String) : Option Parameter :=
  match s with
  | "output" => some output
  | "emit" => some emission
  | "dse" => some optimization
  | _ => none

def Parameter.ofChar? (c : Char) : Option Parameter := if c == 'o' then some output else none

namespace Given

def nothing : Given := ⟨none, none, none, none, false, false, false, 0⟩

def fileName? (s : String) : Option String := if s.isEmpty then none else some s

def turnOn (g : Given) : Switch → Option Given
  | .distributed => if g.distributed then none else some { g with distributed := true }
  | .noFusion => if g.noFusion then none else some { g with noFusion := true }
  | .quiet => if g.quiet then none else some { g with quiet := true }
  | .verbose => some { g with verbosity := g.verbosity + 1 }

def assign (g : Given) (p : Parameter) (value : String) : Option Given :=
  match p with
  | .output =>
    if g.output.isSome then none else do return { g with output := some (← fileName? value) }
  | .emission =>
    if g.emission.isSome then none
    else do return { g with emission := some (← Emission.ofName? value) }
  | .optimization =>
    if g.optimization.isSome then none
    else do return { g with optimization := some (← Optimization.ofName? value) }

def addFile (g : Given) (name : String) : Option Given :=
  if g.input.isSome then none else do return { g with input := some (← fileName? name) }

def toOptions? (g : Given) : Option Options := do
  return {
    input := ← g.input
    output := g.output
    emission := g.emission.getD .clusters
    distributed := g.distributed
    fusion := !g.noFusion
    optimization := g.optimization.getD .none
    verbosity := g.verbosity
    quiet := g.quiet }

end Given

/-- Whether an argument is an option; a single dash is a file name. -/
def isOption (arg : String) : Bool := arg.startsWith "-" && arg != "-"

/--
Reads the letters of an option. A parameter takes the rest of the letters as its value, with or
without an equality sign in front; it is returned if there are none.
-/
def readLetters (g : Given) : List Char → Option (Given × Option Parameter)
  | [] => some (g, none)
  | c :: cs =>
    match Switch.ofChar? c with
    | some s => do readLetters (← g.turnOn s) cs
    | none => do
      let p ← Parameter.ofChar? c
      match cs with
      | [] => return (g, some p)
      | '=' :: value => return (← g.assign p (String.ofList value), none)
      | value => return (← g.assign p (String.ofList value), none)

def readLong (g : Given) (text : List Char) : Option (Given × Option Parameter) :=
  let name := String.ofList (text.takeWhile (· != '='))
  match text.dropWhile (· != '='), Switch.ofName? name with
  | [], some s => do return (← g.turnOn s, none)
  | [], none => do return (g, some (← Parameter.ofName? name))
  | _ :: value, _ => do return (← g.assign (← Parameter.ofName? name) (String.ofList value), none)

def readOption (g : Given) (arg : String) : Option (Given × Option Parameter) :=
  match arg.toList with
  | '-' :: '-' :: text => readLong g text
  | '-' :: letters => readLetters g letters
  | _ => none

/-- Reads all arguments; `pending` is the parameter that needs the next one as its value. -/
def readAll (g : Given) (pending : Option Parameter) : List String → Option Given
  | [] => if pending.isSome then none else some g
  | arg :: args =>
    match pending with
    | some p => if isOption arg then none else do readAll (← g.assign p arg) none args
    | none =>
      if arg == "--" then
        args.foldlM Given.addFile g
      else if isOption arg then do
        let (g, pending) ← readOption g arg
        readAll g pending args
      else do
        readAll (← g.addFile arg) none args

def parse? (args : List String) : Option Options := do
  (← readAll .nothing none args).toOptions?

end CommandLine

end Stencil
