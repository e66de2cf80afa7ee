import Stencil.Json.Build
import Stencil.Json.Reader
import Stencil.Sort

/-!
This module contains the options of the search for block sizes.
-/

namespace Stencil.Tuning

inductive Mode where
  | off
  | basic
  | aggressive
  deriving DecidableEq

namespace Mode

def name : Mode → String
  | off => "off"
  | basic => "basic"
  | aggressive => "aggressive"

def ofName? (s : String) : Option Mode :=
  [off, basic, aggressive].find? (·.name == s)

def ofText? (s : String) : Option Mode :=
  if s = "false" then some off else if s = "true" then some basic else ofName? s

def unknownMessage (s : String) : String := s!"unknown autotuning mode `{s}`"

def ofJson? (j : Json) : Option Mode := j.toName?.bind ofName?

end Mode

structure Options where
  squeezer : Int
  blockSizes : List Int
  stackLimit : Nat
  mode : Mode
  deriving DecidableEq

namespace Options

def defaultBlockSizes : List Int := [8, 16, 24, 32, 40, 64, 128]

def withStackLimit (bytes : Nat) : Options := ⟨5, defaultBlockSizes, bytes, .basic⟩

def setBlockSizes (o : Options) (sizes : List Int) : Options :=
  { o with blockSizes := (sortBy (fun a b => decide (a ≤ b)) sizes).eraseDups }

def largest? (o : Options) : Option Int := o.blockSizes.getLast?

def toJson (o : Options) : Json :=
  .object [
    ("squeezer", .int o.squeezer), ("blocksizes", .ofList .int o.blockSizes),
    ("stack_limit", .ofNat o.stackLimit), ("mode", .string o.mode.name)]

def ofJson? (j : Json) : Option Options := do
  match ← j.toFields? ["squeezer", "blocksizes", "stack_limit", "mode"] with
  | [squeezer, sizes, limit, mode] =>
    return {
      squeezer := ← Json.required Json.toInt? squeezer
      blockSizes := ← Json.required (Json.toListOf? Json.toInt?) sizes
      stackLimit := ← Json.required Json.toNat? limit
      mode := ← Json.required Mode.ofJson? mode }
  | _ => none

def parse? (text : String) : Option Options := do ofJson? (← Json.parse? text)

end Options

end Stencil.Tuning
