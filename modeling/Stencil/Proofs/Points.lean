import Mathlib.Logic.Function.Basic
import Stencil.Proofs.Uniform

/-!
This module contains the points of an iteration space inside of a box, in the order in which its
loops meet them, and the fact that this is the order of their coordinates.
-/

namespace Stencil

namespace Bounds

def values (b : Bounds) : Direction → List Int
  | .forward => (List.range (b.upper + 1 - b.lower).toNat).map fun n : Nat => b.lower + n
  | .backward => (List.range (b.upper + 1 - b.lower).toNat).map fun n : Nat => b.upper - n

theorem pairwise_values (b : Bounds) (d : Direction) :
    (b.values d).Pairwise fun i j => d.signed i < d.signed j := by
  cases d with
  | forward =>
    unfold values
    rw [List.pairwise_map]
    apply List.pairwise_lt_range.imp
    intro m n hlt
    simp only [Direction.signed]
    omega
  | backward =>
    unfold values
    rw [List.pairwise_map]
    apply List.pairwise_lt_range.imp
    intro m n hlt
    simp only [Direction.signed]
    omega

end Bounds

/-- The values that a loop over an interval meets: its bounds are relative to those of the box. -/
def Interval.within (box : Dimension → Bounds) (i : Interval) : Bounds :=
  ⟨(box i.dimension).lower + i.bounds.lower, (box i.dimension).upper + i.bounds.upper⟩

/-- Each dimension has the value of the one that it is a view of. -/
def Point.extend (p : Point) : Point := fun d => p d.root

namespace IterationSpace

/-- The points of a nest of loops, inside of loops that have been entered at `p`. -/
def nest (direction : Dimension → Direction) (box : Dimension → Bounds) :
    List Interval → Point → List Point
  | [], p => [p]
  | i :: is, p => ((i.within box).values (direction i.dimension)).flatMap fun v =>
      nest direction box is (Function.update p i.dimension v)

def points (s : IterationSpace) (box : Dimension → Bounds) : List Point :=
  nest s.direction box s.intervals 0

def loops (s : IterationSpace) : List (Dimension × Direction) :=
  s.dimensions.map fun d => (d, s.direction d)

variable {direction : Dimension → Direction} {box : Dimension → Bounds}

theorem apply_of_mem_nest {is : List Interval} {p q : Point} (h : q ∈ nest direction box is p)
    {d : Dimension} (hd : d ∉ is.map (·.dimension)) : q d = p d := by
  induction is generalizing p with
  | nil =>
    rw [nest, List.mem_singleton] at h
    rw [h]
  | cons i is ih =>
    rw [nest, List.mem_flatMap] at h
    obtain ⟨v, -, hq⟩ := h
    rw [List.map_cons, List.mem_cons, not_or] at hd
    rw [ih hq hd.2, Function.update_of_ne hd.1]

theorem pairwise_nest {is : List Interval} (hnodup : (is.map (·.dimension)).Nodup) (p : Point) :
    (nest direction box is p).Pairwise fun q r =>
      q.coordinates (is.map fun i => (i.dimension, direction i.dimension)) <
        r.coordinates (is.map fun i => (i.dimension, direction i.dimension)) := by
  unfold Point.coordinates
  induction is generalizing p with
  | nil => simp [nest]
  | cons i is ih =>
    rw [List.map_cons, List.nodup_cons] at hnodup
    -- The inner loops leave the dimension of the outer one alone.
    have hfixed {v : Int} {q : Point}
        (hq : q ∈ nest direction box is (Function.update p i.dimension v)) :
        q i.dimension = v := by
      rw [apply_of_mem_nest hq hnodup.1, Function.update_self]
    rw [nest, List.pairwise_flatMap]
    constructor
    · intro v _
      apply (ih hnodup.2 _).imp_of_mem
      intro q r hq hr hlt
      rw [List.map_cons, List.map_cons, List.map_cons, List.cons_lt_cons_iff, hfixed hq, hfixed hr]
      exact .inr ⟨rfl, hlt⟩
    · apply ((i.within box).pairwise_values (direction i.dimension)).imp
      intro v w hlt q hq r hr
      rw [List.map_cons, List.map_cons, List.map_cons, List.cons_lt_cons_iff, hfixed hq, hfixed hr]
      exact .inl hlt

theorem pairwise_points {s : IterationSpace} (hnodup : s.dimensions.Nodup)
    (box : Dimension → Bounds) :
    (s.points box).Pairwise fun p q => p.coordinates s.loops < q.coordinates s.loops := by
  have hpairwise := @pairwise_nest s.direction box _ hnodup 0
  unfold loops dimensions
  rw [List.map_map]
  exact hpairwise

theorem nodup_points {s : IterationSpace} (hnodup : s.dimensions.Nodup)
    (box : Dimension → Bounds) : (s.points box).Nodup := by
  apply (pairwise_points hnodup box).imp
  intro p q hlt heq
  rw [heq] at hlt
  exact lt_irrefl _ hlt

end IterationSpace

end Stencil
