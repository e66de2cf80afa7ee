import Stencil.AccessError
import Stencil.Expr.Text

/-!
This module contains the exchange of halos: the elements around the part of a distributed array that
a process holds, which have to be fetched from its neighbours before they are read.
-/

namespace Stencil

inductive Side where
  | left
  | right
  deriving DecidableEq

def Side.text : Side → String
  | left => "left"
  | right => "right"

structure Halo where
  dimension : Dimension
  side : Side
  amount : Int
  deriving DecidableEq

namespace Halo

def text (h : Halo) : String := "(" ++ h.dimension.name ++ ", " ++ h.side.text ++ s!", {h.amount})"

def dimensionsText (hs : List Halo) : String :=
  Dimension.joinNames (OrdSet.ofList (hs.map (·.dimension))).toList

end Halo

inductive HaloLabel where
  | none
  /-- The array is reduced into; the exchange is left to the user. -/
  | unsupported
  | stencil
  | full
  deriving DecidableEq

namespace HaloLabel

def all : List HaloLabel := [none, unsupported, stencil, full]

def text : HaloLabel → String
  | none => "none"
  | unsupported => "unsupported"
  | stencil => "stencil"
  | full => "full"

end HaloLabel

structure HaloEntry where
  /-- Where the halo belongs along the dimensions that are not exchanged. -/
  localIndices : OrdMap Dimension Expr
  halos : List Halo
  deriving DecidableEq

abbrev HaloMask := List ((Dimension × Side) × Bool)

/-- Which sides of which dimensions of `f` are exchanged; dimensions with a local index are not. -/
def HaloEntry.mask (f : GridFunction) (e : HaloEntry) : HaloMask :=
  (f.dimensions.filter fun d => !e.localIndices.contains d).flatMap fun d =>
    [Side.left, Side.right].map fun side =>
      ((d, side), e.halos.any fun h => h.dimension == d && h.side == side)

inductive HaloError where
  | missingGrid (function : String)
  | sequential (dimension : Dimension)
  | inconsistent (function : String) (dimension : Dimension) (labels : List HaloLabel)
  | missingSlot (dimension : Dimension) (modulo : Nat) (origin : String)
  | access (e : AccessError)

def HaloError.message : HaloError → String
  | missingGrid f => s!"`{f}` requires a `Grid`"
  | sequential d =>
    s!"`{d.name}` is distributed, but is also used in a sequential iteration space"
  | inconsistent f d labels =>
    s!"inconsistency found while building a halo scheme for `{f}` along dimension `{d.name}`: " ++
      ", ".intercalate (labels.map HaloLabel.text)
  | missingSlot d modulo origin =>
    s!"no sub-iterator of `{d.name}` with modulo {modulo} matches origin `{origin}`"
  | access e => e.message

end Stencil
