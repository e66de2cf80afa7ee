import Stencil.Expr.Basic
import Stencil.Tuning.Store
import Stencil.Word

/-!
This module contains operators: compiled programs that run on arguments, with loops that can be cut
into blocks.
-/

namespace Stencil.Tuning

structure Loop where
  dimension : Dimension
  start : Int
  /-- What is added to the bounds of the dimension at either end. -/
  offsets : Int × Int
  isSequential : Bool
  deriving DecidableEq

namespace Loop

def extent (l : Loop) (start finish : Int) : Checked Int := do
  let last ← Word.add finish l.offsets.2
  let first ← Word.add start l.offsets.1
  Word.add (← Word.sub last first) 1

end Loop

def sizeName (d : Dimension) : String := d.name ++ "_size"

structure Parameter where
  name : String
  dimension : Dimension
  loop : Loop
  deriving DecidableEq

namespace Parameter

def limit? (p : Parameter) (args : Arguments) : Checked (Option Int) :=
  match args.int? (sizeName p.dimension) with
  | some size => do return some (← p.loop.extent 0 (← Word.sub size 1))
  | none => pure none

end Parameter

inductive RunError where
  | failed (message : String)
  | missingArgument (name : String)
  deriving DecidableEq

def RunError.message : RunError → String
  | failed message => s!"operator failed: {message}"
  | missingArgument name => s!"missing argument `{name}`"

structure Operator (τ : Type) where
  loops : List Loop
  outputs : List String
  functions : List GridFunction
  profilerName : String := "timers"
  setup : Store τ → Argument × Store τ := fun s => s.addProfile .empty
  run : Arguments → Store τ → Checked (Except RunError Unit × Store τ)

end Stencil.Tuning
