import Stencil.Grid
import Stencil.Word

/-!
This module contains the arrays that equations read and write. An array is described by its
dimensions and by how it is laid out around the domain; its extents are expressions, so its type
has the type of expressions as a parameter.
-/

namespace Stencil

inductive FunctionKind where
  | dense
  | sparse
  | array (onStack : Bool)
  deriving DecidableEq

inductive ElementType where
  | float32
  | float64
  | int32
  deriving DecidableEq

def ElementType.size : ElementType → Nat
  | .float32 => 4
  | .float64 => 8
  | .int32 => 4

/--
An array. Along each dimension its allocation begins with some padding and a halo, then comes the
domain, then a halo and some padding again; `halo` and `padding` give the widths on the left and on
the right.
-/
structure FunctionDecl (ε : Type) where
  name : String
  kind : FunctionKind
  dimensions : List Dimension
  shape : List ε
  halo : List (Nat × Nat)
  padding : List (Nat × Nat)
  grid : Option Grid
  /-- The number of slots of the ring buffer along a stepping dimension. -/
  timeSize : Option Nat
  elementType : ElementType
  deriving DecidableEq

inductive Malformation where
  | shape (entries dimensions : Nat)
  | halo (entries dimensions : Nat)
  | padding (entries dimensions : Nat)
  | noTimeSize
  deriving DecidableEq

def Malformation.message : Malformation → String
  | shape k n => s!"shape has {k} entries for {n} dimensions"
  | halo k n => s!"halo has {k} entries for {n} dimensions"
  | padding k n => s!"padding has {k} entries for {n} dimensions"
  | noTimeSize => "stepping dimension without a time buffer size"

namespace FunctionDecl

variable {ε : Type}

def declare (name : String) (kind : FunctionKind) (dimensions : List Dimension) (shape : List ε) :
    FunctionDecl ε where
  name := name
  kind := kind
  dimensions := dimensions
  shape := shape
  halo := dimensions.map fun _ => (0, 0)
  padding := dimensions.map fun _ => (0, 0)
  grid := none
  timeSize := none
  elementType := .float32

def malformation? (f : FunctionDecl ε) : Option Malformation :=
  let n := f.dimensions.length
  if f.shape.length ≠ n then
    some (.shape f.shape.length n)
  else if f.halo.length ≠ n then
    some (.halo f.halo.length n)
  else if f.padding.length ≠ n then
    some (.padding f.padding.length n)
  else if f.dimensions.any Dimension.isStepping && f.timeSize.isNone then
    some .noTimeSize
  else
    none

def indexOf? (f : FunctionDecl ε) (d : Dimension) : Option Nat := f.dimensions.idxOf? d

/-- Whether `f` may be spread over several processes. -/
def isTensor (f : FunctionDecl ε) : Bool :=
  match f.kind with
  | .dense => true
  | .sparse => true
  | .array _ => false

def isArray (f : FunctionDecl ε) : Bool := !f.isTensor

def isStackArray (f : FunctionDecl ε) : Bool := f.kind == .array true

def widths (table : List (Nat × Nat)) (i? : Option Nat) : Nat × Nat :=
  (i?.bind fun i => table[i]?).getD (0, 0)

def haloAlong (f : FunctionDecl ε) (d : Dimension) : Nat × Nat := widths f.halo (f.indexOf? d)

def offsetAlong (f : FunctionDecl ε) (d : Dimension) : Checked (Nat × Nat) := do
  let halo := widths f.halo (f.indexOf? d)
  let padding := widths f.padding (f.indexOf? d)
  return (← Word.unsigned (halo.1 + padding.1), ← Word.unsigned (halo.2 + padding.2))

def kindRank : FunctionKind → Nat
  | .dense => 0
  | .sparse => 1
  | .array false => 2
  | .array true => 3

def elementRank : ElementType → Nat
  | .float32 => 0
  | .float64 => 1
  | .int32 => 2

def front (f : FunctionDecl ε) : String × Nat × List Dimension :=
  (f.name, kindRank f.kind, f.dimensions)

def back (f : FunctionDecl ε) :
    List (Nat × Nat) × List (Nat × Nat) × Option Grid × Option Nat × Nat :=
  (f.halo, f.padding, f.grid, f.timeSize, elementRank f.elementType)

def cmpFront (f g : FunctionDecl ε) : Ordering :=
  cmpPair compare (cmpPair compare compare) f.front g.front

def cmpBack (f g : FunctionDecl ε) : Ordering :=
  let cmpWidths := List.compareLex (cmpPair compare compare)
  cmpPair cmpWidths (cmpPair cmpWidths (cmpPair compare (cmpPair compare compare))) f.back g.back

def cmpWith (cmp : ε → ε → Ordering) (f g : FunctionDecl ε) : Ordering :=
  (cmpFront f g).then ((List.compareLex cmp f.shape g.shape).then (cmpBack f g))

theorem kindRank_inj {k l : FunctionKind} (h : kindRank k = kindRank l) : k = l := by
  revert h
  rcases k with _ | _ | ⟨_ | _⟩ <;> rcases l with _ | _ | ⟨_ | _⟩ <;> simp [kindRank]

theorem elementRank_inj {k l : ElementType} (h : elementRank k = elementRank l) : k = l := by
  cases k <;> cases l <;> simp_all [elementRank]

theorem eq_of_parts {f g : FunctionDecl ε} (hfront : f.front = g.front) (hshape : f.shape = g.shape)
    (hback : f.back = g.back) : f = g := by
  cases f
  cases g
  simp only [front, back, Prod.mk.injEq] at *
  simp [hfront, hshape, hback, kindRank_inj hfront.2.1, elementRank_inj hback.2.2.2.2]

theorem cmpWith_orderedAt {cmp : ε → ε → Ordering} {f : FunctionDecl ε}
    (h : ∀ e ∈ f.shape, OrderedAt cmp e) : OrderedAt (cmpWith cmp) f := by
  have hwidths (table : List (Nat × Nat)) :
      OrderedAt (List.compareLex (cmpPair compare compare)) table :=
    .compareLex fun _ _ => .pair (.of_transCmp _) (.of_transCmp _)
  have hkey : OrderedAt (cmpPair (cmpPair compare (cmpPair compare compare))
      (cmpPair (List.compareLex cmp) (cmpPair (List.compareLex (cmpPair compare compare))
        (cmpPair (List.compareLex (cmpPair compare compare)) (cmpPair compare
          (cmpPair compare compare)))))) (f.front, f.shape, f.back) :=
    .pair (.pair (.of_transCmp _) (.pair (.of_transCmp _) (.of_transCmp _)))
      (.pair (.compareLex h) (.pair (hwidths _) (.pair (hwidths _) (.pair (.of_transCmp _)
        (.pair (.of_transCmp _) (.of_transCmp _))))))
  refine OrderedAt.on (f := fun f : FunctionDecl ε => (f.front, f.shape, f.back)) ?_ hkey
  intro f g heq
  simp only [Prod.mk.injEq] at heq
  exact eq_of_parts heq.1 heq.2.1 heq.2.2

end FunctionDecl

end Stencil
