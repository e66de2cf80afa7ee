import Mathlib.Order.Bounds.Basic
import Stencil.Proofs.OrdMap
import Stencil.Proofs.Uniform

/-!
This module contains what a data space records: the least range around everything that was recorded
for an array along a dimension. The data space of an equation has the ranges of all its indices.
-/

namespace Stencil

namespace Bounds

def IsHull (S : Set Bounds) : Option Bounds → Prop
  | none => S = ∅
  | some b => IsLeast (lower '' S) b.lower ∧ IsGreatest (upper '' S) b.upper

theorem isHull_singleton (b : Bounds) : IsHull {b} (some b) := by
  unfold IsHull
  rw [Set.image_singleton, Set.image_singleton]
  exact ⟨isLeast_singleton, isGreatest_singleton⟩

theorem IsHull.merge {S T : Set Bounds} {a b : Option Bounds} (ha : IsHull S a)
    (hb : IsHull T b) : IsHull (S ∪ T) (a.merge hull b) := by
  cases a with
  | none =>
    obtain rfl : S = ∅ := ha
    rw [Set.empty_union, Option.merge_none_left]
    exact hb
  | some a =>
    cases b with
    | none =>
      obtain rfl : T = ∅ := hb
      rw [Set.union_empty, Option.merge_none_right]
      exact ha
    | some b =>
      unfold IsHull
      rw [Option.merge_some_some, Set.image_union, Set.image_union]
      exact ⟨ha.1.union hb.1, ha.2.union hb.2⟩

theorem IsHull.unique {S : Set Bounds} {a b : Option Bounds} (ha : IsHull S a)
    (hb : IsHull S b) : a = b := by
  have hempty {c : Bounds} (hc : IsHull S (some c)) : S ≠ ∅ := by
    rintro rfl
    obtain ⟨_, hmem, -⟩ := hc.1.1
    exact hmem
  cases a with
  | none =>
    cases b with
    | none => rfl
    | some b => exact absurd ha (hempty hb)
  | some a =>
    cases b with
    | none => exact absurd hb (hempty ha)
    | some b =>
      obtain ⟨lower, upper⟩ := a
      obtain ⟨lower', upper'⟩ := b
      obtain rfl : lower = lower' := ha.1.unique hb.1
      obtain rfl : upper = upper' := ha.2.unique hb.2
      rfl

end Bounds

namespace DataSpace

theorem find?_extend (s : DataSpace) (f g : GridFunction) (d e : Dimension) (b : Bounds) :
    (s.extend f d b).find? g e =
      if f = g ∧ d = e then (s.find? g e).merge Interval.hull (some ⟨d, b⟩) else s.find? g e := by
  unfold find? extend
  rw [OrdMap.find?_alter]
  by_cases hf : f = g
  · subst hf
    rw [if_pos rfl, Option.bind_some, OrdMap.find?_alter]
    by_cases hd : d = e
    · subst hd
      rw [if_pos rfl, if_pos ⟨rfl, rfl⟩]
      cases s.parts.find? f with
      | none => rfl
      | some m =>
        rw [Option.getD_some, Option.bind_some]
        cases m.find? d <;> rfl
    · rw [if_neg hd, if_neg (fun h => hd h.2)]
      cases s.parts.find? f <;> simp
  · rw [if_neg hf, if_neg (fun h => hf h.1)]

theorem bounds?_extend (s : DataSpace) (f g : GridFunction) (d e : Dimension) (b : Bounds) :
    (s.extend f d b).bounds? g e =
      if f = g ∧ d = e then (s.bounds? g e).merge Bounds.hull (some b) else s.bounds? g e := by
  unfold bounds?
  rw [find?_extend]
  split
  · cases s.find? g e <;> rfl
  · rfl

theorem isHull_bounds? (s : DataSpace) (f : GridFunction) (d : Dimension) :
    Bounds.IsHull {b | s.bounds? f d = some b} (s.bounds? f d) := by
  cases s.bounds? f d with
  | none => simp [Bounds.IsHull]
  | some b => simpa [eq_comm] using Bounds.isHull_singleton b

theorem isHull_foldl {α : Type} {step : DataSpace → α → DataSpace} {S : α → Set Bounds}
    {f : GridFunction} {d : Dimension} {as : List α}
    (hstep : ∀ a ∈ as, ∀ s T, Bounds.IsHull T (s.bounds? f d) →
      Bounds.IsHull (T ∪ S a) ((step s a).bounds? f d))
    {s : DataSpace} {T : Set Bounds} (hs : Bounds.IsHull T (s.bounds? f d)) :
    Bounds.IsHull (T ∪ {b | ∃ a ∈ as, b ∈ S a}) ((as.foldl step s).bounds? f d) := by
  induction as generalizing s T with
  | nil => simpa using hs
  | cons a as ih =>
    rw [List.forall_mem_cons] at hstep
    have hset : T ∪ {b | ∃ a' ∈ a :: as, b ∈ S a'} = T ∪ S a ∪ {b | ∃ a ∈ as, b ∈ S a} := by
      ext b
      simp [or_assoc]
    rw [hset]
    exact ih hstep.2 (hstep.1 s T hs)

def ranges (s : DataSpace) (f : GridFunction) (d : Dimension) : Set Bounds :=
  {b | (f, ⟨d, b⟩) ∈ s.records}

theorem isHull_join {s : DataSpace} {f : GridFunction} {d : Dimension} {T : Set Bounds}
    (hs : Bounds.IsHull T (s.bounds? f d)) (t : DataSpace) :
    Bounds.IsHull (T ∪ t.ranges f d) ((s.join t).bounds? f d) := by
  have hranges : t.ranges f d = {b | ∃ r ∈ t.records, b ∈ {b | r = (f, ⟨d, b⟩)}} := by
    ext b
    simp [ranges]
  rw [hranges]
  apply isHull_foldl _ hs
  rintro ⟨g, e, b⟩ - s T hs
  rw [bounds?_extend]
  split
  · next h =>
    obtain ⟨rfl, rfl⟩ := h
    simpa [eq_comm] using hs.merge (Bounds.isHull_singleton b)
  · next h =>
    have hnone : {b' | (g, (⟨e, b⟩ : Interval)) = (f, ⟨d, b'⟩)} = ∅ := by
      ext b'
      simp [← and_assoc, h]
    rw [hnone, Set.union_empty]
    exact hs

/--
A space as the operations leave it: each array that is listed has a record, and each interval is
along the dimension that it is recorded for.
-/
structure WellFormed (s : DataSpace) : Prop where
  nonempty : ∀ f m, s.parts.find? f = some m → ∃ d i, m.find? d = some i
  keyed : ∀ f d i, s.find? f d = some i → i.dimension = d

theorem wellFormed_empty : empty.WellFormed where
  nonempty _ _ h := by cases h
  keyed _ _ _ h := by cases h

namespace WellFormed

variable {s t : DataSpace}

theorem extend (hs : s.WellFormed) (f : GridFunction) (d : Dimension) (b : Bounds) :
    (s.extend f d b).WellFormed where
  nonempty g m hm := by
    unfold DataSpace.extend at hm
    rw [OrdMap.find?_alter] at hm
    split at hm
    · obtain rfl := Option.some.inj hm
      exact ⟨d, _, by rw [OrdMap.find?_alter, if_pos rfl]⟩
    · exact hs.nonempty g m hm
  keyed g e i hi := by
    rw [find?_extend] at hi
    split at hi
    · next h =>
      obtain ⟨rfl, rfl⟩ := h
      cases hold : s.find? f d with
      | none =>
        rw [hold] at hi
        obtain rfl := Option.some.inj hi
        rfl
      | some j =>
        -- The hull keeps the dimension of the interval that was there.
        rw [hold] at hi
        obtain rfl := Option.some.inj hi
        exact hs.keyed f d j hold
    · exact hs.keyed g e i hi

theorem join (hs : s.WellFormed) (t : DataSpace) : (s.join t).WellFormed :=
  List.foldlRecOn t.records _ hs fun _ hs r _ => hs.extend r.1 r.2.dimension r.2.bounds

theorem find?_eq (hs : s.WellFormed) (f : GridFunction) (d : Dimension) :
    s.find? f d = (s.bounds? f d).map (Interval.mk d) := by
  unfold bounds?
  cases hi : s.find? f d with
  | none => rfl
  | some i =>
    obtain rfl := hs.keyed f d i hi
    rfl

theorem ranges_eq (hs : s.WellFormed) (f : GridFunction) (d : Dimension) :
    s.ranges f d = {b | s.bounds? f d = some b} := by
  have hrecord (i : Interval) : (f, i) ∈ s.records ↔ ∃ e, s.find? f e = some i := by
    unfold records find? OrdMap.values
    simp only [List.mem_flatMap, List.mem_map, Prod.mk.injEq, Option.bind_eq_some_iff,
      OrdMap.find?_eq_some_iff]
    constructor
    · rintro ⟨e, he, _, ⟨r, hr, rfl⟩, rfl, rfl⟩
      exact ⟨r.1, e.2, he, hr⟩
    · rintro ⟨e, m, hm, hi⟩
      exact ⟨_, hm, i, ⟨_, hi, rfl⟩, rfl, rfl⟩
  ext b
  rw [ranges, Set.mem_ofPred_eq, Set.mem_ofPred_eq, hrecord]
  constructor
  · rintro ⟨e, he⟩
    obtain rfl : d = e := hs.keyed f e _ he
    rw [bounds?, he, Option.map_some]
  · intro hb
    exact ⟨d, by rw [hs.find?_eq, hb, Option.map_some]⟩

theorem ext (hs : s.WellFormed) (ht : t.WellFormed)
    (h : ∀ f d, s.bounds? f d = t.bounds? f d) : s = t := by
  suffices hparts : s.parts = t.parts by
    cases s
    cases t
    exact congrArg DataSpace.mk hparts
  apply OrdMap.ext_find?
  intro f
  have hf (d : Dimension) : (s.parts.find? f).bind (·.find? d) =
      (t.parts.find? f).bind (·.find? d) := by
    have hfind : s.find? f d = t.find? f d := by rw [hs.find?_eq, ht.find?_eq, h f d]
    exact hfind
  cases hm : s.parts.find? f with
  | none =>
    cases hm' : t.parts.find? f with
    | none => rfl
    | some m' =>
      obtain ⟨d, i, hi⟩ := ht.nonempty f m' hm'
      have hnone := hf d
      rw [hm, hm', Option.bind_none, Option.bind_some, hi] at hnone
      cases hnone
  | some m =>
    cases hm' : t.parts.find? f with
    | none =>
      obtain ⟨d, i, hi⟩ := hs.nonempty f m hm
      have hnone := hf d
      rw [hm, hm', Option.bind_none, Option.bind_some, hi] at hnone
      cases hnone
    | some m' =>
      rw [hm, hm'] at hf
      exact congrArg some (OrdMap.ext_find? hf)

end WellFormed

theorem wellFormed_union (ss : List DataSpace) : (union ss).WellFormed :=
  List.foldlRecOn ss _ wellFormed_empty fun _ hs t _ => hs.join t

theorem bounds?_join (s : DataSpace) {t : DataSpace} (ht : t.WellFormed) (f : GridFunction)
    (d : Dimension) :
    (s.join t).bounds? f d = (s.bounds? f d).merge Bounds.hull (t.bounds? f d) := by
  have hjoin := isHull_join (s.isHull_bounds? f d) t
  rw [ht.ranges_eq] at hjoin
  exact hjoin.unique ((s.isHull_bounds? f d).merge (t.isHull_bounds? f d))

theorem isHull_union {α : Type} {space : α → DataSpace} {S : α → Set Bounds} {f : GridFunction}
    {d : Dimension} {as : List α} (hspace : ∀ a ∈ as, (space a).WellFormed)
    (h : ∀ a ∈ as, Bounds.IsHull (S a) ((space a).bounds? f d)) :
    Bounds.IsHull {b | ∃ a ∈ as, b ∈ S a} ((union (as.map space)).bounds? f d) := by
  have hempty : Bounds.IsHull ∅ (empty.bounds? f d) := rfl
  have hstep : ∀ a ∈ as, ∀ (s : DataSpace) T, Bounds.IsHull T (s.bounds? f d) →
      Bounds.IsHull (T ∪ S a) ((s.join (space a)).bounds? f d) := by
    intro a ha s T hs
    rw [bounds?_join s (hspace a ha)]
    exact hs.merge (h a ha)
  unfold union
  rw [List.foldl_map]
  simpa using isHull_foldl hstep hempty

/-- A space that was made step by step from the empty one. -/
inductive Recorded : DataSpace → Prop
  | empty : Recorded empty
  | extend {s : DataSpace} (hs : Recorded s) (f : GridFunction) (d : Dimension) (b : Bounds) :
    Recorded (s.extend f d b)
  | union {ss : List DataSpace} (hss : ∀ s ∈ ss, Recorded s) : Recorded (union ss)

theorem Recorded.wellFormed {s : DataSpace} (h : s.Recorded) : s.WellFormed := by
  induction h with
  | empty => exact wellFormed_empty
  | extend _ f d b ih => exact ih.extend f d b
  | union _ _ => exact wellFormed_union _

end DataSpace

namespace Axis

def range? (a : Axis) : Option Bounds :=
  (a.index.shift? a.dimension).map fun k =>
    ⟨Word.toSigned (a.function.offsetAlong a.dimension).value.1 + k,
      Word.toSigned (a.function.offsetAlong a.dimension).value.2 + k⟩

theorem value_offset? (a : Axis) : a.offset?.value = a.index.shift? a.dimension := by
  unfold offset? Expr.shift?
  rw [Checked.value_bind]
  cases (Affine.ofExpr a.index).value <;> rfl

theorem value_touch (s : DataSpace) (a : Axis) :
    (touch s a).value = (a.range?.map (s.extend a.function a.dimension.root)).getD s := by
  unfold touch range?
  rw [Checked.value_bind, value_offset?]
  cases a.index.shift? a.dimension <;> rfl

end Axis

theorem Equation.isHull_dataSpace (eq : Equation) (f : GridFunction) (d : Dimension) :
    Bounds.IsHull {b | ∃ a ∈ eq.axes, a.function = f ∧ a.dimension.root = d ∧ a.range? = some b}
      (eq.dataSpace.value.bounds? f d) := by
  have hempty : Bounds.IsHull ∅ (DataSpace.empty.bounds? f d) := rfl
  unfold dataSpace
  rw [Checked.value_foldlM, ← Set.empty_union {b | ∃ a ∈ eq.axes, _}]
  apply DataSpace.isHull_foldl
    (S := fun a : Axis => {b | a.function = f ∧ a.dimension.root = d ∧ a.range? = some b}) _ hempty
  intro a _ s T hs
  rw [Axis.value_touch]
  by_cases ha : a.function = f ∧ a.dimension.root = d
  · cases hrange : a.range? with
    | none => simpa [hrange] using hs
    | some b =>
      have hadded : Bounds.IsHull (T ∪ {b}) ((s.bounds? f d).merge Bounds.hull (some b)) :=
        hs.merge (Bounds.isHull_singleton b)
      simpa [hrange, ha, DataSpace.bounds?_extend, eq_comm] using hadded
  · have hsame : (((a.range?.map (s.extend a.function a.dimension.root)).getD s).bounds? f d) =
        s.bounds? f d := by
      cases a.range? with
      | none => rfl
      | some b => simp [DataSpace.bounds?_extend, ha]
    rw [hsame]
    simpa [← and_assoc, ha] using hs

theorem Equation.recorded_dataSpace (eq : Equation) : eq.dataSpace.value.Recorded := by
  unfold dataSpace
  rw [Checked.value_foldlM]
  apply List.foldlRecOn _ _ DataSpace.Recorded.empty
  intro s hs a _
  rw [Axis.value_touch]
  cases a.range? with
  | none => exact hs
  | some b => exact hs.extend a.function a.dimension.root b

end Stencil
