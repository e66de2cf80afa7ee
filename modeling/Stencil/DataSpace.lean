import Stencil.Expr.Basic
import Stencil.Interval

/-!
This module contains data spaces: which part of the allocation of each array is touched, along each
dimension. An interval is found by the dimension that it was recorded for and also names this
dimension itself; a union goes by the latter.
-/

namespace Stencil

structure DataSpace where
  parts : OrdMap GridFunction (OrdMap Dimension Interval)
  deriving DecidableEq

namespace DataSpace

def empty : DataSpace := ⟨.empty⟩

def extend (s : DataSpace) (f : GridFunction) (d : Dimension) (b : Bounds) : DataSpace :=
  ⟨s.parts.alter f fun m => (m.getD .empty).alter d fun i => (i.map (·.hull ⟨d, b⟩)).getD ⟨d, b⟩⟩

def find? (s : DataSpace) (f : GridFunction) (d : Dimension) : Option Interval :=
  (s.parts.find? f).bind (·.find? d)

def bounds? (s : DataSpace) (f : GridFunction) (d : Dimension) : Option Bounds :=
  (s.find? f d).map (·.bounds)

def records (s : DataSpace) : List (GridFunction × Interval) :=
  s.parts.entries.flatMap fun e => e.2.values.map fun i => (e.1, i)

def join (s t : DataSpace) : DataSpace :=
  t.records.foldl (fun s r => s.extend r.1 r.2.dimension r.2.bounds) s

def union (ss : List DataSpace) : DataSpace := ss.foldl join empty

end DataSpace

end Stencil
