/-!
This module contains the directions in which loops run.
-/

namespace Stencil

inductive Direction where
  | forward
  | backward
  deriving DecidableEq

namespace Direction

instance : Inhabited Direction := ⟨forward⟩

def text : Direction → String
  | forward => "++"
  | backward => "--"

def joinTexts (ds : List Direction) : String := ", ".intercalate (ds.map text)

end Direction

end Stencil
