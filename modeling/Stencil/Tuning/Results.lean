import Stencil.Text.Quoted
import Stencil.Tuning.BlockShape

/-!
This module contains the outcomes of trials, the choice of the best one, and their report as a
table.
-/

namespace Stencil.Tuning

inductive SkipReason where
  | tooLarge
  | stackOverflow (bytes : Nat)
  | unknownStackSize
  | failed (message : String)
  deriving DecidableEq

def SkipReason.text : SkipReason → String
  | tooLarge => "TooLarge"
  | stackOverflow bytes => s!"StackOverflow({bytes})"
  | unknownStackSize => "UnknownStackSize"
  | failed message => s!"Failed({Text.quoted message})"

inductive Verdict (τ : Type) where
  | timed (elapsed : τ)
  | skipped (reason : SkipReason)
  deriving DecidableEq

structure Trial (τ : Type) where
  shape : BlockShape
  verdict : Verdict τ
  deriving DecidableEq

namespace Trial

variable {τ : Type}

def elapsed? (t : Trial τ) : Option τ :=
  match t.verdict with
  | .timed elapsed => some elapsed
  | .skipped _ => none

def skipReason? (t : Trial τ) : Option SkipReason :=
  match t.verdict with
  | .timed _ => none
  | .skipped reason => some reason

def row [Elapsed τ] (t : Trial τ) : String :=
  let elapsed := (t.elapsed?.map Elapsed.text).getD ""
  let reason := (t.skipReason?.map SkipReason.text).getD ""
  "\"" ++ t.shape.text ++ "\"," ++ elapsed ++ "," ++ reason ++ "\n"

end Trial

structure Results (τ : Type) where
  trials : List (Trial τ)
  timesteps : Int

namespace Results

variable {τ : Type}

def empty : Results τ := ⟨[], 0⟩

def add (r : Results τ) (shape : BlockShape) (verdict : Verdict τ) : Results τ :=
  { r with trials := r.trials ++ [⟨shape, verdict⟩] }

def timed (r : Results τ) : List (Trial τ × τ) :=
  r.trials.filterMap fun t => t.elapsed?.map fun elapsed => (t, elapsed)

variable [Elapsed τ]

def faster (a b : Trial τ × τ) : Trial τ × τ := if Elapsed.less b.2 a.2 then b else a

/-- The fastest trial, and of several the first one. -/
def best? (r : Results τ) : Option (Trial τ) :=
  match r.timed with
  | [] => none
  | t :: ts => some (ts.foldl faster t).1

def sorted (r : Results τ) : List (Trial τ) :=
  (sortBy (fun a b => Elapsed.inOrder a.2 b.2) r.timed).map (·.1)

def table (r : Results τ) : String :=
  "shape,elapsed,skipped\n" ++ String.join (r.trials.map Trial.row)

end Results

end Stencil.Tuning
