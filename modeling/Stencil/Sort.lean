/-!
This module contains stable sorting by insertion.
-/

namespace Stencil

universe u

variable {α : Type u}

def insertBy (le : α → α → Bool) (a : α) : List α → List α
  | [] => [a]
  | b :: bs => if le a b then a :: b :: bs else b :: insertBy le a bs

def sortBy (le : α → α → Bool) (as : List α) : List α := as.foldr (insertBy le) []

end Stencil
