import Stencil.Dimension

/-!
This module contains structured grids: their spatial dimensions, their size, and which of their
dimensions are spread over several processes.
-/

namespace Stencil

structure Grid where
  shape : List Nat
  dimensions : List Dimension
  /-- The dimensions that are cut into parts, each of which is held by another process. -/
  distributed : OrdSet Dimension
  time : Option Dimension
  stepping : Option Dimension
  deriving DecidableEq

namespace Grid

def isDistributed (g : Grid) (d : Dimension) : Bool := g.distributed.contains d

def fields (g : Grid) :
    List Nat × List Dimension × List Dimension × Option Dimension × Option Dimension :=
  (g.shape, g.dimensions, g.distributed.keys, g.time, g.stepping)

theorem eq_of_fields {g h : Grid} (heq : g.fields = h.fields) : g = h := by
  obtain ⟨_, _, gdistributed, _, _⟩ := g
  obtain ⟨_, _, hdistributed, _, _⟩ := h
  simp only [fields, Prod.mk.injEq] at heq
  obtain ⟨hshape, hdims, hkeys, htime, hstepping⟩ := heq
  have hdistributed : gdistributed = hdistributed := OrdSet.eq_of_keys hkeys
  simp [hshape, hdims, hdistributed, htime, hstepping]

protected def cmp (g h : Grid) : Ordering :=
  cmpPair compare (cmpPair compare (cmpPair compare (cmpPair compare compare))) g.fields h.fields

instance : Ord Grid := ⟨Grid.cmp⟩

theorem cmp_orderedAt (g : Grid) : OrderedAt Grid.cmp g :=
  .on eq_of_fields (.pair (.of_transCmp _) (.pair (.of_transCmp _) (.pair (.of_transCmp _)
    (.pair (.of_transCmp _) (.of_transCmp _)))))

instance : Std.TransOrd Grid := OrderedAt.transCmp cmp_orderedAt

instance : Std.LawfulEqOrd Grid := OrderedAt.lawfulEqCmp cmp_orderedAt

end Grid

end Stencil
