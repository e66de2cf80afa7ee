import Stencil.Json.Build
import Stencil.LoadError
import Stencil.Schedule

/-!
This module contains the JSON form of errors: their kind, and the message that goes with it.
-/

namespace Stencil

namespace LoadError

/-- The kind of an error; what cannot be read at all has no message. -/
def view (e : LoadError) : Json :=
  let kind (name : String) : Json := .ofError ("Load." ++ name) e.message
  match e with
  | unknownDimension _ => kind "UnknownDimension"
  | unknownFunction _ => kind "UnknownFunction"
  | redeclaration _ => kind "Redeclaration"
  | invalid _ _ => kind "Invalid"
  | unreadable => .object [("error", .string "Load.Json")]

end LoadError

namespace AccessError

def kind : AccessError → String
  | dimensions _ _ => "Access.MismatchedFindices"
  | directions _ _ => "Access.MismatchedDirections"
  | rank _ _ => "Access.RankMismatch"
  | notIndexed _ _ => "Access.DimensionNotIndexed"

def view (e : AccessError) : Json := .ofError e.kind e.message

end AccessError

namespace HaloError

def kind : HaloError → String
  | missingGrid _ => "HaloScheme.MissingGrid"
  | sequential _ => "HaloScheme.SequentialDistributed"
  | inconsistent _ _ _ => "HaloScheme.Inconsistent"
  | missingSlot _ _ _ => "HaloScheme.MissingSubIterator"
  | access _ => "HaloScheme.Access"

def view (e : HaloError) : Json := .ofError e.kind e.message

end HaloError

/-- The kind of the inner error with the message of the outer one. -/
def ScheduleError.view (e : ScheduleError) : Json :=
  match e with
  | access inner => .ofError inner.kind e.message
  | halo inner => .ofError inner.kind e.message

end Stencil
