import Stencil.Expr.Eval
import Stencil.Tuning.Store

/-!
This module contains the memory that the arrays on the stack need.
-/

namespace Stencil.Tuning

def word? (n : Nat) : Option Nat := if Word.isUnsigned n then some n else none

def natural? (q : Rat) : Option Nat := if q.den = 1 ∧ 0 ≤ q.num then some q.num.toNat else none

/--
Multiplies `acc` by the values of extents. There is no product if an extent has no value or is no
natural number, or if the product leaves the range of words on the way.
-/
def volume (ρ : String → Option Int) (acc : Nat) : List Expr → Checked (Option Nat)
  | [] => pure (some acc)
  | extent :: extents => do
    let value ← extent.evaluate ρ
    match (value.bind natural?).bind fun n => word? (acc * n) with
    | some acc => volume ρ acc extents
    | none => return none

def addBytes (acc : Nat) (t : ElementType) (elements : Nat) : Option Nat := do
  let bytes ← word? (elements * t.size)
  word? (acc + bytes)

def bytesOnStack (ρ : String → Option Int) (acc : Nat) : List GridFunction → Checked (Option Nat)
  | [] => pure (some acc)
  | f :: fs =>
    if f.isStackArray then do
      let elements ← volume ρ 1 f.shape
      match elements.bind (addBytes acc f.elementType) with
      | some acc => bytesOnStack ρ acc fs
      | none => return none
    else
      bytesOnStack ρ acc fs

def stackFootprint (fs : List GridFunction) (args : Arguments) : Checked (Option Nat) :=
  bytesOnStack args.int? 0 fs

end Stencil.Tuning
