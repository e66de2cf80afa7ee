import Stencil.Halo.Scheme
import Stencil.Proofs.OrdMap
import Stencil.Proofs.Uniform

/-!
This module contains which slots there are in the union of the spaces of equations. A slot for an
index is there exactly if an equation that is iterated over the root has such an index, in whatever
order the indices are collected.
-/

namespace Stencil

namespace Slot

/-- What an index is compared by: its affine form, if it has one. -/
def key (e : Expr) : Affine ⊕ Expr := (Affine.ofExpr e).value.elim (.inr e) .inl

theorem value_sameOrigin (a b : Expr) : (sameOrigin a b).value = decide (key a = key b) := by
  unfold sameOrigin key
  simp only [Checked.value_bind]
  cases ha : (Affine.ofExpr a).value with
  | none =>
    cases hb : (Affine.ofExpr b).value with
    | none => simp
    | some y =>
      have hne : a ≠ b := by
        rintro rfl
        rw [ha] at hb
        cases hb
      simp [hne]
  | some x =>
    cases hb : (Affine.ofExpr b).value with
    | none =>
      have hne : a ≠ b := by
        rintro rfl
        rw [ha] at hb
        cases hb
      simp [hne]
    | some y => simp

def Serves (modulo : Nat) (origin : Expr) (s : Slot) : Prop :=
  s.modulo = modulo ∧ key s.origin = key origin

theorem value_anyFor (modulo : Nat) (origin : Expr) (ss : List Slot) :
    (anyFor modulo origin ss).value = true ↔ ∃ s ∈ ss, s.Serves modulo origin := by
  unfold Serves
  induction ss with
  | nil => simp [anyFor]
  | cons s ss ih =>
    rw [anyFor]
    by_cases hm : s.modulo = modulo
    · rw [if_pos hm, Checked.value_bind, isFor, value_sameOrigin]
      by_cases ho : key s.origin = key origin
      · simp [hm, ho]
      · simp [hm, ho, ih]
    · rw [if_neg hm, ih]
      simp [hm]

theorem isSome_findSlot (modulo : Nat) (origin : Expr) (ss : List Slot) :
    (Halo.findSlot modulo origin ss).value.isSome = true ↔ ∃ s ∈ ss, s.Serves modulo origin := by
  have hany : (Halo.findSlot modulo origin ss).value.isSome = (anyFor modulo origin ss).value := by
    induction ss with
    | nil => rfl
    | cons s ss ih =>
      rw [Halo.findSlot, anyFor]
      split
      · rw [Checked.value_bind, Checked.value_bind]
        split
        · rfl
        · exact ih
      · exact ih
  rw [hany, value_anyFor]

def Needs (root : Dimension) (modulo : Nat) (origin : Expr) (a : Axis) : Prop :=
  a.dimension.isStepping = true ∧ a.dimension.root = root ∧ a.function.timeSize = some modulo ∧
    key a.index.simplify.value = key origin

variable {root : Dimension} {modulo : Nat} {origin : Expr}

theorem exists_mem_register (slots : OrdMap Dimension (List Slot)) (a : Axis) :
    (∃ s ∈ ((register slots a).value.find? root).getD [], s.Serves modulo origin) ↔
      (∃ s ∈ (slots.find? root).getD [], s.Serves modulo origin) ∨
        Needs root modulo origin a := by
  unfold register Needs
  split
  · next size hsize hstepping =>
    simp only [Checked.value_bind]
    split
    · next hany =>
      rw [Checked.value_pure]
      rw [value_anyFor] at hany
      constructor
      · exact .inl
      · rintro (h | ⟨-, rfl, hmodulo, hkey⟩)
        · exact h
        · obtain ⟨s, hs, hserves⟩ := hany
          rw [hsize] at hmodulo
          exact ⟨s, hs, hserves.1.trans (Option.some.inj hmodulo), hserves.2.trans hkey⟩
    · rw [Checked.value_pure, OrdMap.find?_insert]
      by_cases hroot : a.dimension.root = root
      · subst hroot
        rw [if_pos rfl, Option.getD_some, hsize]
        simp only [List.mem_append, List.mem_singleton, or_and_right, exists_or, exists_eq_left,
          Serves, hstepping, Option.some_inj, true_and]
      · simp [hroot]
  · next hnot =>
    rw [Checked.value_pure]
    constructor
    · exact .inl
    · rintro (h | ⟨hstepping, -, hmodulo, -⟩)
      · exact h
      · exact absurd hstepping (hnot _ hmodulo)

theorem exists_mem_collect (eqs : List Equation) :
    (∃ s ∈ ((collect eqs).value.find? root).getD [], s.Serves modulo origin) ↔
      ∃ eq ∈ eqs, ∃ a ∈ eq.axes, Needs root modulo origin a := by
  have hfold (as : List Axis) (slots : OrdMap Dimension (List Slot)) :
      (∃ s ∈ ((as.foldl (fun m a => (register m a).value) slots).find? root).getD [],
        s.Serves modulo origin) ↔
      (∃ s ∈ (slots.find? root).getD [], s.Serves modulo origin) ∨
        ∃ a ∈ as, Needs root modulo origin a := by
    induction as generalizing slots with
    | nil => simp
    | cons a as ih => simp [ih, exists_mem_register, or_assoc]
  unfold collect
  rw [Checked.value_foldlM, hfold, OrdMap.find?_empty]
  simp only [Option.getD_none, List.not_mem_nil, false_and, exists_false, false_or, List.mem_flatMap]
  constructor
  · rintro ⟨a, ⟨eq, heq, ha⟩, hneeds⟩
    exact ⟨eq, heq, a, ha, hneeds⟩
  · rintro ⟨eq, heq, a, ha, hneeds⟩
    exact ⟨a, ⟨eq, heq, ha⟩, hneeds⟩

end Slot

namespace IterationSpace

theorem mem_addSlots {ss ts : List Slot} {s : Slot} : s ∈ addSlots ss ts ↔ s ∈ ss ∨ s ∈ ts := by
  unfold addSlots
  induction ts generalizing ss with
  | nil => simp
  | cons t ts ih =>
    rw [List.foldl_cons, ih]
    split
    · grind
    · grind

theorem mem_slotsOf_join {s t : IterationSpace} {d : Dimension} {x : Slot} :
    x ∈ (s.join t).slotsOf d ↔ x ∈ s.slotsOf d ∨ x ∈ t.slotsOf d := by
  have hfold (es : List (Dimension × List Slot)) (m : OrdMap Dimension (List Slot)) :
      x ∈ ((es.foldl (fun m e => m.alter e.1 fun ss => addSlots (ss.getD []) e.2) m).find?
        d.root).getD [] ↔
      x ∈ (m.find? d.root).getD [] ∨ ∃ e ∈ es, e.1 = d.root ∧ x ∈ e.2 := by
    induction es generalizing m with
    | nil => simp
    | cons e es ih =>
      rw [List.foldl_cons, ih, OrdMap.find?_alter]
      by_cases he : e.1 = d.root
      · simp [he, mem_addSlots, or_assoc]
      · simp [he]
  have hentries : (∃ e ∈ t.slots.entries, e.1 = d.root ∧ x ∈ e.2) ↔ x ∈ t.slotsOf d := by
    unfold slotsOf
    constructor
    · rintro ⟨e, he, hroot, hx⟩
      rw [← hroot, OrdMap.find?_eq_some_iff.2 he]
      exact hx
    · intro hx
      cases hfind : t.slots.find? d.root with
      | none => simp [hfind] at hx
      | some ss =>
        rw [hfind] at hx
        exact ⟨(d.root, ss), OrdMap.find?_eq_some_iff.1 hfind, rfl, hx⟩
  rw [← hentries]
  exact hfold t.slots.entries s.slots

theorem mem_slotsOf_union {ss : List IterationSpace} {d : Dimension} {x : Slot} :
    x ∈ (union ss).slotsOf d ↔ ∃ s ∈ ss, x ∈ s.slotsOf d := by
  have hfold (s : IterationSpace) :
      x ∈ (ss.foldl join s).slotsOf d ↔ x ∈ s.slotsOf d ∨ ∃ t ∈ ss, x ∈ t.slotsOf d := by
    induction ss generalizing s with
    | nil => simp
    | cons t ss ih => simp [ih, mem_slotsOf_join, or_assoc]
  unfold union
  rw [hfold]
  simp [slotsOf, empty]

theorem exists_mem_slotsOf_union {eqs : List Equation} {directions : OrdMap Dimension Direction}
    {d : Dimension} {modulo : Nat} {origin : Expr} :
    (∃ s ∈ (union (eqs.map (Equation.iterationSpace (Slot.collect eqs).value directions))).slotsOf d,
        s.Serves modulo origin) ↔
      (∃ eq ∈ eqs, d.root ∈ eq.loops) ∧
        ∃ eq ∈ eqs, ∃ a ∈ eq.axes, Slot.Needs d.root modulo origin a := by
  have hslots (eq : Equation) (s : Slot) :
      s ∈ (eq.iterationSpace (Slot.collect eqs).value directions).slotsOf d ↔
        d.root ∈ eq.loops ∧ s ∈ ((Slot.collect eqs).value.find? d.root).getD [] := by
    unfold slotsOf Equation.iterationSpace
    rw [OrdMap.find?_filter]
    cases (Slot.collect eqs).value.find? d.root with
    | none => simp
    | some ss => by_cases hd : d.root ∈ eq.loops <;> simp [hd, Option.filter]
  rw [← Slot.exists_mem_collect]
  simp only [mem_slotsOf_union, List.mem_map]
  constructor
  · rintro ⟨s, ⟨_, ⟨eq, heq, rfl⟩, hs⟩, hserves⟩
    rw [hslots] at hs
    exact ⟨⟨eq, heq, hs.1⟩, s, hs.2, hserves⟩
  · rintro ⟨⟨eq, heq, hd⟩, s, hs, hserves⟩
    exact ⟨s, ⟨_, ⟨eq, heq, rfl⟩, (hslots eq s).2 ⟨hd, hs⟩⟩, hserves⟩

theorem find?_directions_join (s t : IterationSpace) (d : Dimension) :
    (s.join t).directions.find? d = (s.directions.find? d).or (t.directions.find? d) := by
  have hfold (es : List (Dimension × Direction)) (m : OrdMap Dimension Direction) :
      (es.foldl (fun m e => m.alter e.1 fun dir => dir.getD e.2) m).find? d =
        (m.find? d).or ((es.find? fun e => compare d e.1 == .eq).map (·.2)) := by
    induction es generalizing m with
    | nil => simp
    | cons e es ih =>
      rw [List.foldl_cons, ih, OrdMap.find?_alter]
      by_cases he : e.1 = d
      · cases hm : m.find? e.1 <;> simp [← he, hm]
      · simp [he, Ne.symm he]
  exact hfold t.directions.entries s.directions

theorem direction_union {ss : List IterationSpace} {direction : Dimension → Direction}
    (hne : ss ≠ []) (h : ∀ s ∈ ss, s.direction = direction) : (union ss).direction = direction := by
  have hjoin {s t : IterationSpace} (hs : s.directions = .empty ∨ s.direction = direction)
      (ht : t.direction = direction) : (s.join t).direction = direction := by
    funext d
    have htd : (t.directions.find? d.root).getD .forward = direction d := congrFun ht d
    unfold IterationSpace.direction
    rw [find?_directions_join]
    cases hfind : s.directions.find? d.root with
    | none => exact htd
    | some dir =>
      rcases hs with hs | hs
      · rw [hs, OrdMap.find?_empty] at hfind
        cases hfind
      · have hsd : (s.directions.find? d.root).getD .forward = direction d := congrFun hs d
        rw [hfind] at hsd
        exact hsd
  obtain _ | ⟨s, ss⟩ := ss
  · exact absurd rfl hne
  rw [List.forall_mem_cons] at h
  unfold union
  rw [List.foldl_cons]
  have hfirst : (empty.join s).direction = direction := hjoin (.inl rfl) h.1
  refine List.foldlRecOn (motive := fun s => s.direction = direction) ss join hfirst ?_
  intro s hs t ht
  exact hjoin (.inr hs) (h.2 t ht)

end IterationSpace

end Stencil
