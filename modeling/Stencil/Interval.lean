import Stencil.Dimension

/-!
This module contains closed ranges of integers and intervals along a dimension.
-/

namespace Stencil

structure Bounds where
  lower : Int
  upper : Int
  deriving DecidableEq

namespace Bounds

def hull (a b : Bounds) : Bounds := ⟨min a.lower b.lower, max a.upper b.upper⟩

def meet (a b : Bounds) : Bounds := ⟨max a.lower b.lower, min a.upper b.upper⟩

end Bounds

structure Interval where
  dimension : Dimension
  bounds : Bounds
  deriving DecidableEq

namespace Interval

def hull (a b : Interval) : Interval := ⟨a.dimension, a.bounds.hull b.bounds⟩

def meet (a b : Interval) : Interval := ⟨a.dimension, a.bounds.meet b.bounds⟩

def cmp (a b : Interval) : Ordering :=
  cmpPair compare (cmpPair compare compare) (a.dimension, a.bounds.lower, a.bounds.upper)
    (b.dimension, b.bounds.lower, b.bounds.upper)

def text (i : Interval) : String :=
  i.dimension.name ++ s!"[{i.bounds.lower},{i.bounds.upper}]"

end Interval

end Stencil
