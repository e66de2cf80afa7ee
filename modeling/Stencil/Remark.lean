import Stencil.Checked

/-!
This module contains remarks: what the program tells about its work while it is going on, for those
who want to know.
-/

namespace Stencil

inductive Level where
  | error
  | warning
  | info
  | debug
  deriving DecidableEq

namespace Level

def rank : Level → Nat
  | error => 0
  | warning => 1
  | info => 2
  | debug => 3

def name : Level → String
  | error => "error"
  | warning => "warning"
  | info => "info"
  | debug => "debug"

def isShown (limit level : Level) : Bool := decide (level.rank ≤ limit.rank)

end Level

structure Remark where
  level : Level
  /-- The text, which is only made if the remark is shown, and need not stay in range. -/
  text : Checked String

namespace Remark

def debug (text : Checked String) : Remark := ⟨.debug, text⟩

def line (r : Remark) : Checked String := do
  return "[" ++ r.level.name ++ "] " ++ (← r.text).replace "\n" "\n    " ++ "\n"

def report (limit : Level) (rs : List Remark) : Checked String := do
  return String.join (← (rs.filter fun r => limit.isShown r.level).mapM line)

end Remark

end Stencil
