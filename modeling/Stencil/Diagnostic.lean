/-!
This module contains messages for the user, with a severity and notes.
-/

namespace Stencil

inductive Severity where
  | error
  | warning
  deriving DecidableEq

structure Diagnostic where
  severity : Severity
  message : String
  notes : List String
  deriving DecidableEq

def Severity.text : Severity → String
  | error => "error"
  | warning => "warning"

def Diagnostic.text (d : Diagnostic) : String :=
  d.severity.text ++ ": " ++ d.message ++ String.join (d.notes.map ("\n  = note: " ++ ·))

end Stencil
