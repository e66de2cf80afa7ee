import Stencil.Dimension
import Stencil.Direction

/-!
This module contains the ways in which array accesses can fail to be comparable, and their messages.
-/

namespace Stencil

inductive AccessError where
  | dimensions (left right : List Dimension)
  | directions (left right : List Direction)
  | rank (left right : Nat)
  | notIndexed (dimension : Dimension) (function : String)
  deriving DecidableEq

def AccessError.message : AccessError → String
  | dimensions left right =>
    "cannot compare accesses with mismatching findices [" ++ Dimension.joinNames left ++
      "] and [" ++ Dimension.joinNames right ++ "]"
  | directions left right =>
    "cannot compare accesses with mismatching directions [" ++ Direction.joinTexts left ++
      "] and [" ++ Direction.joinTexts right ++ "]"
  | rank left right => s!"cannot operate with vectors of different rank ({left} vs {right})"
  | notIndexed d f => s!"dimension `{d.name}` is not among the findices of `{f}`"

end Stencil
