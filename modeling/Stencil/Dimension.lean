import Stencil.OrdMap
import Stencil.OrderedAt

/-!
This module contains the dimensions that arrays are indexed by and loops run over. Stepping and
conditional dimensions are views of a parent dimension; a loop runs over the root of a dimension.
-/

namespace Stencil

inductive Dimension where
  /-- A dimension without further meaning, such as the points of a sparse function. -/
  | plain (name : String)
  | space (name : String)
  | time (name : String)
  /-- The slots of a ring buffer that the parent steps through. -/
  | stepping (name : String) (parent : Dimension)
  /-- The parent, of which only every `factor`-th iteration counts. -/
  | conditional (name : String) (parent : Dimension) (factor : Int)
  deriving DecidableEq

namespace Dimension

def name : Dimension → String
  | plain n => n
  | space n => n
  | time n => n
  | stepping n _ => n
  | conditional n _ _ => n

def parent? : Dimension → Option Dimension
  | stepping _ p => some p
  | conditional _ p _ => some p
  | _ => none

/-- The dimension that is actually iterated over. -/
def root : Dimension → Dimension
  | stepping _ p => p.root
  | conditional _ p _ => p.root
  | d => d

def isSpace : Dimension → Bool
  | space _ => true
  | _ => false

def isStepping : Dimension → Bool
  | stepping _ _ => true
  | _ => false

def isConditional : Dimension → Bool
  | conditional _ _ _ => true
  | _ => false

def isTime (d : Dimension) : Bool :=
  match d.root with
  | time _ => true
  | _ => false

def rank : Dimension → Nat
  | plain _ => 0
  | space _ => 1
  | time _ => 2
  | stepping _ _ => 3
  | conditional _ _ _ => 4

def lineage : Dimension → List (String × Nat)
  | stepping n p => (n, 3) :: p.lineage
  | conditional n p _ => (n, 4) :: p.lineage
  | d => [(d.name, d.rank)]

def factors : Dimension → List Int
  | stepping _ p => p.factors
  | conditional _ p f => p.factors ++ [f]
  | _ => []

protected def cmp (a b : Dimension) : Ordering :=
  cmpPair (List.compareLex (cmpPair compare compare)) compare
    (a.lineage, a.factors) (b.lineage, b.factors)

instance : Ord Dimension := ⟨Dimension.cmp⟩

theorem eq_of_lineage_factors {d e : Dimension} (hlineage : d.lineage = e.lineage)
    (hfactors : d.factors = e.factors) : d = e := by
  induction d generalizing e with
  | plain n => cases e <;> simp_all [lineage, name, rank]
  | space n => cases e <;> simp_all [lineage, name, rank]
  | time n => cases e <;> simp_all [lineage, name, rank]
  | stepping n p ih =>
    cases e with
    | stepping n' p' =>
      simp only [lineage, List.cons.injEq, Prod.mk.injEq, and_true] at hlineage
      rw [hlineage.1, ih hlineage.2 hfactors]
    | _ => simp [lineage, name, rank] at hlineage
  | conditional n p f ih =>
    cases e with
    | conditional n' p' f' =>
      simp only [lineage, List.cons.injEq, Prod.mk.injEq, and_true] at hlineage
      obtain ⟨hparent, hlast⟩ := List.append_inj' hfactors rfl
      rw [hlineage.1, ih hlineage.2 hparent, List.singleton_inj.1 hlast]
    | _ => simp [lineage, name, rank] at hlineage

theorem cmp_orderedAt (d : Dimension) : OrderedAt Dimension.cmp d :=
  .on (fun h => eq_of_lineage_factors (Prod.ext_iff.1 h).1 (Prod.ext_iff.1 h).2)
    (.pair (.compareLex fun _ _ => .pair (.of_transCmp _) (.of_transCmp _)) (.of_transCmp _))

instance : Std.TransOrd Dimension := OrderedAt.transCmp cmp_orderedAt

instance : Std.LawfulEqOrd Dimension := OrderedAt.lawfulEqCmp cmp_orderedAt

def joinNames (ds : List Dimension) : String := ", ".intercalate (ds.map name)

end Dimension

end Stencil
