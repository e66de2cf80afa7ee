import Stencil.Equation

/-!
This module contains the elimination of common subexpressions. In each round the most expensive
operations that occur more than once are bound to temporaries. In the end the temporaries are
renumbered, so that each one is numbered in the order of definition.
-/

namespace Stencil

namespace Temporaries

def replaceIn (σ : Expr → Option Expr) (eq : Equation) : Checked Equation := do
  return ⟨← eq.lhs.replace σ, ← eq.rhs.replace σ, eq.isIncrement⟩

/-- The equations of the temporaries, the last one first, and the rest of the program. -/
structure State where
  temporaries : List Equation
  program : List Equation
  deriving DecidableEq

namespace State

def equations (s : State) : List Equation := s.temporaries ++ s.program

def operations (s : State) : List Expr := s.equations.flatMap fun eq => eq.rhs.operations

def replace (σ : Expr → Option Expr) (s : State) : Checked State := do
  return ⟨← s.temporaries.mapM (replaceIn σ), ← s.program.mapM (replaceIn σ)⟩

def targets (s : State) : List Expr :=
  let repeated := ((Expr.occurrences s.operations).filter fun _ n => decide (1 < n)).keys
  let most := (repeated.map Expr.cost).foldl max 0
  repeated.filter fun e => e.cost == most

def bind (make : Nat → Expr) (s : State) (targets : List Expr) : List (Expr × Expr) :=
  targets.zipIdx.map fun e => (e.1, make (s.temporaries.length + e.2))

def eliminate (make : Nat → Expr) (fuel : Nat) (s : State) : Checked State :=
  match fuel with
  | 0 => pure s
  | fuel + 1 =>
    match s.targets with
    | [] => pure s
    | targets => do
      let bindings := s.bind make targets
      let next ← s.replace (OrdMap.ofList bindings).find?
      if next = s then
        return s
      else
        let new := bindings.reverse.map fun b => ⟨b.2, b.1, false⟩
        eliminate make fuel ⟨new ++ next.temporaries, next.program⟩

/-- All equations, with the temporaries renamed in the opposite order. -/
def renumber (s : State) : Checked (List Equation) :=
  let names := s.temporaries.map (·.lhs)
  s.equations.mapM (replaceIn (OrdMap.ofList (names.zip names.reverse)).find?)

end State

/--
Binds repeated operations to temporaries, whose equations come first. Each round leaves fewer
operations repeated than there were, so there are no more rounds than operations.
-/
def eliminate (make : Nat → Expr) (eqs : List Equation) : Checked (List Equation) := do
  let start : State := ⟨[], eqs⟩
  (← start.eliminate make (start.operations.length + 1)).renumber

end Temporaries

end Stencil
