import Stencil.AccessError
import Stencil.Affine
import Stencil.Expr.Text

/-!
This module contains vectors of index functions. Two of them are compared through their distance:
if all its entries are integers they are compared lexicographically, otherwise they cannot be
compared.
-/

namespace Stencil

/-- A computation on machine integers that can meet accesses that do not go together. -/
abbrev Analysis := ExceptT AccessError Checked

abbrev OffsetVector := List Expr

namespace OffsetVector

def ofInts (is : List Int) : OffsetVector := is.map .ofInt

def toInts? (v : OffsetVector) : Option (List Int) := v.mapM Expr.toInt?

def isZero (v : OffsetVector) : Bool := v.all fun e => e.toInt? == some 0

def zipWith (f : Expr → Expr → Checked Expr) (a b : OffsetVector) : Analysis OffsetVector :=
  if a.length = b.length then
    liftM ((a.zip b).mapM fun e => f e.1 e.2)
  else
    throw (.rank a.length b.length)

def add (a b : OffsetVector) : Analysis OffsetVector :=
  zipWith (fun x y => do (← x.plus y).simplify) a b

def sub (a b : OffsetVector) : Analysis OffsetVector := zipWith Expr.difference a b

def neg (v : OffsetVector) : Checked OffsetVector := v.mapM fun e => do (← e.neg).simplify

def sign? (v : OffsetVector) : Option Ordering :=
  v.toInts?.map fun is => ((is.map fun i => compare i 0).find? (· != .eq)).getD .eq

/-- The order of two vectors, if it is the same for all values of their scalars. -/
def compare? (a b : OffsetVector) : Analysis (Option Ordering) := do return (← a.sub b).sign?

def compareScalar? (v : OffsetVector) (e : Expr) : Checked (Option Ordering) := do
  return sign? (← v.mapM fun x => x.difference e)

def text (v : OffsetVector) : Checked String := do
  return "(" ++ ", ".intercalate (← Expr.texts v) ++ ")"

end OffsetVector

end Stencil
