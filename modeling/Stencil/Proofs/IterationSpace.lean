import Mathlib.Data.Option.Basic
import Mathlib.Order.Bounds.Basic
import Stencil.IterationSpace
import Stencil.Proofs.OrdMap

/-!
This module contains what iteration spaces have in common. Their intersection has the loops, slots
and directions that all of them have, and each loop is as long as all of them allow. Only the order
of loops and slots depends on which space comes first.
-/

namespace Stencil

namespace Bounds

/-- The greatest range within all ranges of a set, of which there is one at least. -/
def IsCore (S : Set Bounds) (b : Bounds) : Prop :=
  IsGreatest (lower '' S) b.lower ∧ IsLeast (upper '' S) b.upper

theorem IsCore.meet {S T : Set Bounds} {a b : Bounds} (ha : IsCore S a) (hb : IsCore T b) :
    IsCore (S ∪ T) (a.meet b) := by
  unfold IsCore
  rw [Set.image_union, Set.image_union]
  exact ⟨ha.1.union hb.1, ha.2.union hb.2⟩

theorem IsCore.unique {S : Set Bounds} {a b : Bounds} (ha : IsCore S a) (hb : IsCore S b) :
    a = b := by
  obtain ⟨lower, upper⟩ := a
  obtain ⟨lower', upper'⟩ := b
  obtain rfl : lower = lower' := ha.1.unique hb.1
  obtain rfl : upper = upper' := ha.2.unique hb.2
  rfl

end Bounds

namespace IterationSpace

def Lists (s : IterationSpace) (d : Dimension) (x : Slot) : Prop :=
  ∃ xs, s.slots.find? d = some xs ∧ x ∈ xs

/-- There is one loop for each dimension, and no slot is listed twice under a root. -/
structure Distinct (s : IterationSpace) : Prop where
  loops : s.dimensions.Nodup
  slots : ∀ d xs, s.slots.find? d = some xs → xs.Nodup

def ranges (s : IterationSpace) (d : Dimension) : Set Bounds := {b | ⟨d, b⟩ ∈ s.intervals}

theorem Distinct.isCore {s : IterationSpace} (hs : s.Distinct) {d : Dimension} {b : Bounds}
    (hb : b ∈ s.ranges d) : Bounds.IsCore (s.ranges d) b := by
  have hset : s.ranges d = {b} := by
    ext b'
    constructor
    · intro hb'
      have heq : (⟨d, b'⟩ : Interval) = ⟨d, b⟩ := List.inj_on_of_nodup_map hs.loops hb' hb rfl
      exact congrArg Interval.bounds heq
    · rintro rfl
      exact hb
  rw [hset, Bounds.IsCore, Set.image_singleton, Set.image_singleton]
  exact ⟨isGreatest_singleton, isLeast_singleton⟩

section Meet

variable {s t : IterationSpace}

theorem exists_of_mem_ranges_meet {d : Dimension} {b : Bounds} (h : b ∈ (s.meet t).ranges d) :
    ∃ a ∈ s.ranges d, ∃ a' ∈ t.ranges d, b = a.meet a' := by
  obtain ⟨i, hi, hmeet⟩ := List.mem_filterMap.1 h
  obtain ⟨j, hj, heq⟩ := Option.map_eq_some_iff.1 hmeet
  have hdimension : j.dimension = i.dimension := by simpa using List.find?_some hj
  obtain ⟨rfl, rfl⟩ := Interval.mk.inj heq
  refine ⟨i.bounds, hi, j.bounds, ?_, rfl⟩
  have hmem := List.mem_of_find?_eq_some hj
  rwa [ranges, Set.mem_ofPred_eq, ← hdimension]

theorem dimensions_meet (s t : IterationSpace) :
    (s.meet t).dimensions = s.dimensions.filter fun d => d ∈ t.dimensions := by
  unfold dimensions meet
  dsimp only
  induction s.intervals with
  | nil => rfl
  | cons i is ih =>
    rw [List.filterMap_cons, List.map_cons, List.filter_cons]
    cases hfind : t.intervals.find? fun j => j.dimension == i.dimension with
    | none =>
      have hnot : i.dimension ∉ t.intervals.map (·.dimension) := by
        intro hmem
        obtain ⟨j, hj, hdimension⟩ := List.mem_map.1 hmem
        simpa [hdimension] using List.find?_eq_none.1 hfind j hj
      simpa [hnot] using ih
    | some k =>
      have hdimension : k.dimension = i.dimension := by simpa using List.find?_some hfind
      have hmem : i.dimension ∈ t.intervals.map (·.dimension) :=
        List.mem_map.2 ⟨k, List.mem_of_find?_eq_some hfind, hdimension⟩
      simpa [hmem, Interval.meet] using ih

theorem mem_dimensions_meet {d : Dimension} :
    d ∈ (s.meet t).dimensions ↔ d ∈ s.dimensions ∧ d ∈ t.dimensions := by
  rw [dimensions_meet, List.mem_filter, decide_eq_true_iff]

theorem find?_slots_meet (s t : IterationSpace) (d : Dimension) :
    (s.meet t).slots.find? d =
      (s.slots.find? d).bind fun xs => (t.slots.find? d).map fun ys => xs.filter ys.contains :=
  OrdMap.find?_filterMap ..

theorem isSome_slots_meet {d : Dimension} :
    ((s.meet t).slots.find? d).isSome = true ↔
      (s.slots.find? d).isSome = true ∧ (t.slots.find? d).isSome = true := by
  rw [find?_slots_meet]
  cases s.slots.find? d <;> cases t.slots.find? d <;> simp

theorem lists_meet {d : Dimension} {x : Slot} :
    (s.meet t).Lists d x ↔ s.Lists d x ∧ t.Lists d x := by
  unfold Lists
  rw [find?_slots_meet]
  cases s.slots.find? d <;> cases t.slots.find? d <;> simp

theorem find?_directions_meet {d : Dimension} {dir : Direction} :
    (s.meet t).directions.find? d = some dir ↔
      s.directions.find? d = some dir ∧ t.directions.find? d = some dir := by
  change (s.directions.filter _).find? d = some dir ↔ _
  rw [OrdMap.find?_filter, Option.filter_eq_some_iff, beq_iff_eq]

theorem Distinct.meet (hs : s.Distinct) (t : IterationSpace) : (s.meet t).Distinct where
  loops := by
    rw [dimensions_meet]
    exact hs.loops.filter _
  slots d zs hzs := by
    rw [find?_slots_meet, Option.bind_eq_some_iff] at hzs
    obtain ⟨xs, hxs, hzs⟩ := hzs
    obtain ⟨ys, -, rfl⟩ := Option.map_eq_some_iff.1 hzs
    exact (hs.slots d xs hxs).filter _

end Meet

section Intersection

variable {ss : List IterationSpace}

theorem intersection_iff {P : IterationSpace → Prop} (hmeet : ∀ s t, P (s.meet t) ↔ P s ∧ P t)
    (hss : ss ≠ []) : P (intersection ss) ↔ ∀ s ∈ ss, P s := by
  cases ss with
  | nil => exact absurd rfl hss
  | cons s ss =>
    rw [intersection, List.forall_mem_cons]
    clear hss
    induction ss generalizing s with
    | nil => simp
    | cons t ss ih => rw [List.foldl_cons, ih, hmeet, List.forall_mem_cons, and_assoc]

theorem dimensions_intersection (s : IterationSpace) (ss : List IterationSpace) :
    (intersection (s :: ss)).dimensions =
      s.dimensions.filter fun d => ∀ t ∈ ss, d ∈ t.dimensions := by
  rw [intersection]
  induction ss generalizing s with
  | nil => simp
  | cons t ss ih =>
    rw [List.foldl_cons, ih, dimensions_meet, List.filter_filter]
    simp only [List.forall_mem_cons, Bool.decide_and, Bool.and_comm]

theorem distinct_intersection (hss : ss ≠ []) (hdistinct : ∀ s ∈ ss, s.Distinct) :
    (intersection ss).Distinct := by
  cases ss with
  | nil => exact absurd rfl hss
  | cons s ss =>
    rw [intersection]
    exact List.foldlRecOn ss _ (hdistinct s (List.mem_cons_self ..)) fun s hs t _ => hs.meet t

theorem exists_mem_ranges_cons (s : IterationSpace) (ss : List IterationSpace) (d : Dimension) :
    {a | ∃ t ∈ s :: ss, a ∈ t.ranges d} = s.ranges d ∪ {a | ∃ t ∈ ss, a ∈ t.ranges d} := by
  ext a
  simp

theorem isCore_foldl_meet {s : IterationSpace} (hss : ∀ t ∈ ss, t.Distinct) {d : Dimension}
    {b : Bounds} {S : Set Bounds} (hs : ∀ a ∈ s.ranges d, Bounds.IsCore S a)
    (hb : b ∈ (ss.foldl meet s).ranges d) :
    Bounds.IsCore (S ∪ {a | ∃ t ∈ ss, a ∈ t.ranges d}) b := by
  induction ss generalizing s S with
  | nil => simpa using hs b hb
  | cons t ss ih =>
    rw [List.forall_mem_cons] at hss
    rw [exists_mem_ranges_cons, ← Set.union_assoc]
    refine ih hss.2 (fun b hb => ?_) hb
    obtain ⟨a, ha, a', ha', rfl⟩ := exists_of_mem_ranges_meet hb
    exact (hs a ha).meet (hss.1.isCore ha')

theorem isCore_of_mem_ranges_intersection (hdistinct : ∀ s ∈ ss, s.Distinct) {d : Dimension}
    {b : Bounds} (hb : b ∈ (intersection ss).ranges d) :
    Bounds.IsCore {a | ∃ s ∈ ss, a ∈ s.ranges d} b := by
  cases ss with
  | nil => cases hb
  | cons s ss =>
    rw [List.forall_mem_cons] at hdistinct
    rw [exists_mem_ranges_cons]
    exact isCore_foldl_meet hdistinct.2 (fun a ha => hdistinct.1.isCore ha) hb

theorem mem_ranges_intersection (hss : ss ≠ []) (hdistinct : ∀ s ∈ ss, s.Distinct)
    {d : Dimension} {b : Bounds} :
    b ∈ (intersection ss).ranges d ↔
      (∀ s ∈ ss, d ∈ s.dimensions) ∧ Bounds.IsCore {a | ∃ s ∈ ss, a ∈ s.ranges d} b := by
  have hdimensions := intersection_iff (P := fun s => d ∈ s.dimensions)
    (fun _ _ => mem_dimensions_meet) hss
  constructor
  · intro hb
    exact ⟨hdimensions.1 (List.mem_map_of_mem hb), isCore_of_mem_ranges_intersection hdistinct hb⟩
  · rintro ⟨hall, hcore⟩
    obtain ⟨i, hi, rfl⟩ := List.mem_map.1 (hdimensions.2 hall)
    rw [hcore.unique (isCore_of_mem_ranges_intersection hdistinct (b := i.bounds) hi)]
    exact hi

end Intersection

/-- Two spaces that differ in the order of loops and in the order of slots under a root at most. -/
structure SameUpToOrder (s t : IterationSpace) : Prop where
  intervals : s.intervals.Perm t.intervals
  slots : ∀ d, Option.Rel List.Perm (s.slots.find? d) (t.slots.find? d)
  directions : s.directions = t.directions

theorem sameUpToOrder_intersection {ss ts : List IterationSpace} (hss : ss ≠ [])
    (hdistinct : ∀ s ∈ ss, s.Distinct) (hperm : ts.Perm ss) :
    SameUpToOrder (intersection ts) (intersection ss) := by
  have hts : ts ≠ [] := fun h => hss (List.perm_nil.1 (h ▸ hperm.symm))
  have hdistinct' : ∀ s ∈ ts, s.Distinct := fun s hs => hdistinct s (hperm.mem_iff.1 hs)
  have hsame {P : IterationSpace → Prop} (hmeet : ∀ s t, P (s.meet t) ↔ P s ∧ P t) :
      P (intersection ts) ↔ P (intersection ss) := by
    rw [intersection_iff hmeet hts, intersection_iff hmeet hss]
    simp only [hperm.mem_iff]
  have hnodup := distinct_intersection hss hdistinct
  have hnodup' := distinct_intersection hts hdistinct'
  constructor
  · rw [List.perm_ext_iff_of_nodup hnodup'.loops.of_map hnodup.loops.of_map]
    rintro ⟨d, b⟩
    have hranges := mem_ranges_intersection hts hdistinct' (d := d) (b := b)
    simp only [hperm.mem_iff] at hranges
    exact hranges.trans (mem_ranges_intersection hss hdistinct).symm
  · intro d
    have hroot := hsame (P := fun s => (s.slots.find? d).isSome = true)
      fun _ _ => isSome_slots_meet
    have hlists (x : Slot) := hsame (P := fun s => s.Lists d x) fun _ _ => lists_meet
    unfold Lists at hlists
    cases hys : (intersection ts).slots.find? d with
    | none =>
      cases hxs : (intersection ss).slots.find? d with
      | none => exact .none
      | some xs => simp [hys, hxs] at hroot
    | some ys =>
      cases hxs : (intersection ss).slots.find? d with
      | none => simp [hys, hxs] at hroot
      | some xs =>
        apply Option.Rel.some
        rw [List.perm_ext_iff_of_nodup (hnodup'.slots d ys hys) (hnodup.slots d xs hxs)]
        simpa [hys, hxs] using hlists
  · apply OrdMap.ext_find?
    intro d
    ext dir
    exact hsame (P := fun s => s.directions.find? d = some dir) fun _ _ => find?_directions_meet

/--
The intersection of iteration spaces has the loops that all of them have, in the order of the first
space, and each loop is as long as all of them allow. A slot is in use, and a direction is stated,
exactly if it is so in all spaces. Another order of the spaces changes the order of loops and of
slots under a root at most.
-/
theorem intersection_greatest {first : IterationSpace} {rest : List IterationSpace}
    (h : ∀ s ∈ first :: rest, s.Distinct) :
    (intersection (first :: rest)).dimensions =
        first.dimensions.filter (fun d => ∀ s ∈ first :: rest, d ∈ s.dimensions) ∧
      (∀ i ∈ (intersection (first :: rest)).intervals,
        IsGreatest (Bounds.lower '' {b | ∃ s ∈ first :: rest, ⟨i.dimension, b⟩ ∈ s.intervals})
            i.bounds.lower ∧
          IsLeast (Bounds.upper '' {b | ∃ s ∈ first :: rest, ⟨i.dimension, b⟩ ∈ s.intervals})
            i.bounds.upper) ∧
      (∀ d x, (intersection (first :: rest)).Lists d x ↔ ∀ s ∈ first :: rest, s.Lists d x) ∧
      (∀ d dir, (intersection (first :: rest)).directions.find? d = some dir ↔
        ∀ s ∈ first :: rest, s.directions.find? d = some dir) ∧
      ∀ ss, ss.Perm (first :: rest) →
        SameUpToOrder (intersection ss) (intersection (first :: rest)) := by
  have hne : first :: rest ≠ [] := List.cons_ne_nil first rest
  refine ⟨?_, ?_, ?_, ?_, ?_⟩
  · rw [dimensions_intersection]
    apply List.filter_congr
    intro d hd
    simp only [List.forall_mem_cons, hd, true_and]
  · exact fun i hi => isCore_of_mem_ranges_intersection h (b := i.bounds) hi
  · exact fun d x => intersection_iff (P := fun s => s.Lists d x) (fun _ _ => lists_meet) hne
  · exact fun d dir => intersection_iff (P := fun s => s.directions.find? d = some dir)
      (fun _ _ => find?_directions_meet) hne
  · exact fun ss hperm => sameUpToOrder_intersection hne h hperm

section Nests

def slotAt (name : String) (shift : Rat) : Slot :=
  ⟨name, .stepping "t" (.time "time"), .add [.num shift, .sym "t"], 3⟩

/-- The loops `time[0,5]`, `x[0,8]` and `y[1,6]`. -/
def threefold : IterationSpace where
  intervals := [⟨.time "time", ⟨0, 5⟩⟩, ⟨.space "x", ⟨0, 8⟩⟩, ⟨.space "y", ⟨1, 6⟩⟩]
  slots := .ofList [(.time "time", [slotAt "t0" 1, slotAt "t1" 2])]
  directions := .ofList [(.time "time", .backward), (.space "x", .forward)]

/-- The loops `y[0,4]` and `time[-1,3]`, in the other order. -/
def swapped : IterationSpace where
  intervals := [⟨.space "y", ⟨0, 4⟩⟩, ⟨.time "time", ⟨-1, 3⟩⟩]
  slots := .ofList [(.time "time", [slotAt "t2" 3, slotAt "t1" 2])]
  directions := .ofList [(.time "time", .backward), (.space "x", .backward)]

theorem distinct_of_ofList {is : List Interval} {es : List (Dimension × List Slot)}
    {directions : OrdMap Dimension Direction} (his : (is.map (·.dimension)).Nodup)
    (hes : ∀ e ∈ es, e.2.Nodup) : Distinct ⟨is, .ofList es, directions⟩ where
  loops := his
  slots d xs hxs := hes (d, xs) (OrdMap.mem_of_find?_ofList hxs)

theorem intersection_greatest_nests :
    threefold.Distinct ∧ swapped.Distinct ∧
      (intersection [threefold, swapped]).dimensions = [.time "time", .space "y"] ∧
      IsLeast (Bounds.upper '' {b | ∃ s ∈ [threefold, swapped], ⟨.time "time", b⟩ ∈ s.intervals}) 3 ∧
      (intersection [threefold, swapped]).Lists (.time "time") (slotAt "t1" 2) ∧
      (intersection [threefold, swapped]).directions.find? (.time "time") = some .backward ∧
      (intersection [swapped, threefold]).dimensions = [.space "y", .time "time"] ∧
      SameUpToOrder (intersection [swapped, threefold]) (intersection [threefold, swapped]) := by
  have hthreefold : threefold.Distinct := distinct_of_ofList (by decide) (by decide +kernel)
  have hswapped : swapped.Distinct := distinct_of_ofList (by decide) (by decide +kernel)
  have hboth : ∀ s ∈ [threefold, swapped], s.Distinct := by simp [hthreefold, hswapped]
  obtain ⟨hdimensions, hbounds, hlists, hdirections, hperm⟩ := intersection_greatest hboth
  have hloop : ⟨.time "time", ⟨0, 3⟩⟩ ∈ (intersection [threefold, swapped]).intervals := by
    decide +kernel
  refine ⟨hthreefold, hswapped, hdimensions.trans (by decide +kernel), (hbounds _ hloop).2, ?_, ?_,
    by decide +kernel, ?_⟩
  · rw [hlists]
    simp only [List.forall_mem_cons]
    exact ⟨⟨[slotAt "t0" 1, slotAt "t1" 2], rfl, by simp⟩,
      ⟨[slotAt "t2" 3, slotAt "t1" 2], rfl, by simp⟩, by simp⟩
  · rw [hdirections]
    decide +kernel
  · exact hperm _ (.swap ..)

end Nests

end IterationSpace

end Stencil
