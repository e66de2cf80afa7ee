import Stencil.Proofs.Halo.Amounts
import Stencil.Proofs.Mirror.Scope
import Stencil.Proofs.Schedule
import Stencil.Proofs.Slots

/-!
This module contains the spaces of reflected equations. The parts of arrays that are touched are
reflected along `d` and the same along all other dimensions, the loop over `d` is turned around, and
there are slots for the same indices.
-/

namespace Stencil

namespace Bounds

def reflect (c : Int) (b : Bounds) : Bounds := ⟨c - b.upper, c - b.lower⟩

theorem IsHull.reflect {S : Set Bounds} {o : Option Bounds} (h : IsHull S o) (c : Int) :
    IsHull (Bounds.reflect c '' S) (o.map (Bounds.reflect c)) := by
  cases o with
  | none =>
    obtain rfl : S = ∅ := h
    exact Set.image_empty _
  | some b =>
    obtain ⟨⟨⟨bl, hbl, hlower⟩, hleast⟩, ⟨bu, hbu, hupper⟩, hgreatest⟩ := h
    refine ⟨⟨⟨_, Set.mem_image_of_mem _ hbu, ?_⟩, ?_⟩, ⟨_, Set.mem_image_of_mem _ hbl, ?_⟩, ?_⟩
    · unfold Bounds.reflect
      rw [hupper]
    · rintro _ ⟨_, ⟨b', hb', rfl⟩, rfl⟩
      have hle := hgreatest (Set.mem_image_of_mem _ hb')
      unfold Bounds.reflect
      dsimp only
      omega
    · unfold Bounds.reflect
      rw [hlower]
    · rintro _ ⟨_, ⟨b', hb', rfl⟩, rfl⟩
      have hle := hleast (Set.mem_image_of_mem _ hb')
      unfold Bounds.reflect
      dsimp only
      omega

end Bounds

theorem Dimension.isStepping_root (d : Dimension) : d.root.isStepping = false := by
  induction d with
  | stepping n p ih => exact ih
  | conditional n p f ih => exact ih
  | _ => rfl

namespace Axis

variable {d : Dimension} {a : Axis}

theorem mirror_of_ne (h : a.dimension ≠ d) : a.mirror d = a := by
  unfold mirror
  rw [if_neg h]

theorem index_mirror (h : a.dimension = d) : (a.mirror d).index = Expr.mirrorIndex d a.index := by
  unfold mirror
  rw [if_pos h]

theorem loop?_mirror (h : a.dimension = d → (a.index.shift? d).isSome = true) :
    (a.mirror d).loop? = a.loop? := by
  by_cases hd : a.dimension = d
  · obtain ⟨k, hk⟩ := Option.isSome_iff_exists.1 (h hd)
    rw [← hd] at hk
    have hk' : (a.mirror d).index.shift? (a.mirror d).dimension = some (-k) := by
      rw [index_mirror hd]
      subst hd
      exact Expr.shift?_mirrorIndex hk
    rw [loop?_of_shift? hk, loop?_of_shift? hk']
    rfl
  · rw [mirror_of_ne hd]

theorem range?_mirror (h : a.dimension = d) (hshift : (a.index.shift? d).isSome = true) :
    (a.mirror d).range? = a.range?.map (Bounds.reflect
      (Word.toSigned (a.function.offsetAlong d).value.1 +
        Word.toSigned (a.function.offsetAlong d).value.2)) := by
  obtain ⟨k, hk⟩ := Option.isSome_iff_exists.1 hshift
  subst h
  have hk' : (a.mirror a.dimension).index.shift? (a.mirror a.dimension).dimension = some (-k) := by
    rw [index_mirror rfl]
    exact Expr.shift?_mirrorIndex hk
  unfold range?
  rw [hk', hk, Option.map_some, Option.map_some, Option.map_some, Bounds.reflect, Option.some_inj,
    Bounds.mk.injEq]
  have hfunction : (a.mirror a.dimension).function = a.function := rfl
  have hdimension : (a.mirror a.dimension).dimension = a.dimension := rfl
  rw [hfunction, hdimension]
  constructor
  · dsimp only
    omega
  · dsimp only
    omega

end Axis

namespace Equation

variable {d : Dimension} {eq : Equation}

theorem root_of_mem_axes (h : ∀ r ∈ eq.references, r.Mirrorable d) {a : Axis} (ha : a ∈ eq.axes)
    (hroot : a.dimension.root = d) : a.dimension = d := by
  obtain ⟨r, hr, ha⟩ := List.mem_flatMap.1 ha
  obtain ⟨p, hp, rfl⟩ := List.mem_map.1 ha
  exact (h r hr).root p.1 (List.of_mem_zip hp).1 hroot

theorem shift_of_mem_axes (h : ∀ r ∈ eq.references, r.Mirrorable d) {a : Axis} (ha : a ∈ eq.axes)
    (hd : a.dimension = d) : (a.index.shift? d).isSome = true := by
  obtain ⟨r, hr, ha⟩ := List.mem_flatMap.1 ha
  exact (h r hr).shift a ha hd

theorem exists_mem_axes_mirror (h : ∀ r ∈ eq.references, r.Mirrorable d) {p : Axis → Prop} :
    (∃ a ∈ (eq.mirror d).axes, p a) ↔ ∃ a ∈ eq.axes, p (a.mirror d) := by
  simp only [(perm_axes_mirror h).mem_iff, List.mem_map]
  constructor
  · rintro ⟨_, ⟨a, ha, rfl⟩, hp⟩
    exact ⟨a, ha, hp⟩
  · rintro ⟨a, ha, hp⟩
    exact ⟨_, ⟨a, ha, rfl⟩, hp⟩

theorem mem_loops_mirror (h : ∀ r ∈ eq.references, r.Mirrorable d) {e : Dimension} :
    e ∈ (eq.mirror d).loops ↔ e ∈ eq.loops := by
  unfold loops
  rw [List.mem_eraseDups, List.mem_eraseDups, List.mem_filterMap, List.mem_filterMap,
    exists_mem_axes_mirror h]
  apply exists_congr
  intro a
  apply and_congr_right
  intro ha
  rw [Axis.loop?_mirror (shift_of_mem_axes h ha)]

section Joint

variable {eqs : List Equation} (h : ∀ eq ∈ eqs, ∀ r ∈ eq.references, r.Mirrorable d)

include h

theorem isHull_jointData_mirror (f : GridFunction) (e : Dimension) :
    Bounds.IsHull {b | ∃ eq ∈ eqs, ∃ a ∈ eq.axes, a.function = f ∧ a.dimension.root = e ∧
        (a.mirror d).range? = some b}
      ((jointData (eqs.map (mirror d))).bounds? f e) := by
  have hset : {b | ∃ eq ∈ eqs.map (mirror d), ∃ a ∈ eq.axes, a.function = f ∧
      a.dimension.root = e ∧ a.range? = some b} =
      {b | ∃ eq ∈ eqs, ∃ a ∈ eq.axes, a.function = f ∧ a.dimension.root = e ∧
        (a.mirror d).range? = some b} := by
    ext b
    rw [Set.mem_ofPred_eq, Set.mem_ofPred_eq]
    constructor
    · rintro ⟨_, hmem, haxis⟩
      obtain ⟨eq, heq, rfl⟩ := List.mem_map.1 hmem
      exact ⟨eq, heq, (exists_mem_axes_mirror (h eq heq)).1 haxis⟩
    · rintro ⟨eq, heq, haxis⟩
      exact ⟨_, List.mem_map_of_mem heq, (exists_mem_axes_mirror (h eq heq)).2 haxis⟩
  rw [← hset]
  exact isHull_jointData (eqs.map (mirror d)) f e

theorem bounds?_jointData_mirror (f : GridFunction) :
    (jointData (eqs.map (mirror d))).bounds? f d =
      ((jointData eqs).bounds? f d).map (Bounds.reflect
        (Word.toSigned (f.offsetAlong d).value.1 + Word.toSigned (f.offsetAlong d).value.2)) := by
  have hhull := (isHull_jointData eqs f d).reflect
    (Word.toSigned (f.offsetAlong d).value.1 + Word.toSigned (f.offsetAlong d).value.2)
  refine (isHull_jointData_mirror h f d).unique ?_
  convert hhull using 1
  ext b
  constructor
  · rintro ⟨eq, heq, a, ha, rfl, hroot, hb⟩
    have hdim := root_of_mem_axes (h eq heq) ha hroot
    rw [Axis.range?_mirror hdim (shift_of_mem_axes (h eq heq) ha hdim)] at hb
    obtain ⟨b', hb', rfl⟩ := Option.map_eq_some_iff.1 hb
    exact ⟨b', ⟨eq, heq, a, ha, rfl, hroot, hb'⟩, rfl⟩
  · rintro ⟨b', ⟨eq, heq, a, ha, rfl, hroot, hb'⟩, rfl⟩
    have hdim := root_of_mem_axes (h eq heq) ha hroot
    refine ⟨eq, heq, a, ha, rfl, hroot, ?_⟩
    rw [Axis.range?_mirror hdim (shift_of_mem_axes (h eq heq) ha hdim), hb']
    rfl

variable (hd : d.root = d)

include hd

theorem bounds?_jointData_mirror_of_ne (f : GridFunction) {e : Dimension} (he : e ≠ d) :
    (jointData (eqs.map (mirror d))).bounds? f e = (jointData eqs).bounds? f e := by
  have hhull := isHull_jointData eqs f e
  refine (isHull_jointData_mirror h f e).unique ?_
  convert hhull using 1
  ext b
  have hself {a : Axis} (hroot : a.dimension.root = e) : a.mirror d = a := by
    apply Axis.mirror_of_ne
    rintro rfl
    exact he (hroot.symm.trans hd)
  constructor
  · rintro ⟨eq, heq, a, ha, hf, hroot, hb⟩
    rw [hself hroot] at hb
    exact ⟨eq, heq, a, ha, hf, hroot, hb⟩
  · rintro ⟨eq, heq, a, ha, hf, hroot, hb⟩
    rw [← hself hroot] at hb
    exact ⟨eq, heq, a, ha, hf, hroot, hb⟩

theorem exists_mem_slotsOf_mirror {directions directions' : OrdMap Dimension Direction}
    {e : Dimension} {modulo : Nat} {origin : Expr} :
    (∃ s ∈ (jointSpace (eqs.map (mirror d)) directions').slotsOf e, s.Serves modulo origin) ↔
      ∃ s ∈ (jointSpace eqs directions).slotsOf e, s.Serves modulo origin := by
  unfold jointSpace
  rw [IterationSpace.exists_mem_slotsOf_union, IterationSpace.exists_mem_slotsOf_union]
  have hneeds (a : Axis) : Slot.Needs e.root modulo origin (a.mirror d) ↔
      Slot.Needs e.root modulo origin a := by
    by_cases hdim : a.dimension = d
    · have hstepping : a.dimension.isStepping = false := by
        rw [hdim, ← hd]
        exact d.isStepping_root
      have hstepping' : (a.mirror d).dimension.isStepping = false := hstepping
      simp [Slot.Needs, hstepping, hstepping']
    · rw [Axis.mirror_of_ne hdim]
  apply and_congr
  · constructor
    · rintro ⟨_, hmem, hloop⟩
      obtain ⟨eq, heq, rfl⟩ := List.mem_map.1 hmem
      exact ⟨eq, heq, (mem_loops_mirror (h eq heq)).1 hloop⟩
    · rintro ⟨eq, heq, hloop⟩
      exact ⟨_, List.mem_map_of_mem heq, (mem_loops_mirror (h eq heq)).2 hloop⟩
  · constructor
    · rintro ⟨_, hmem, haxis⟩
      obtain ⟨eq, heq, rfl⟩ := List.mem_map.1 hmem
      obtain ⟨a, ha, hneed⟩ := (exists_mem_axes_mirror (h eq heq)).1 haxis
      exact ⟨eq, heq, a, ha, (hneeds a).1 hneed⟩
    · rintro ⟨eq, heq, a, ha, hneed⟩
      exact ⟨_, List.mem_map_of_mem heq,
        (exists_mem_axes_mirror (h eq heq)).2 ⟨a, ha, (hneeds a).2 hneed⟩⟩

end Joint

def TurnsAround (d : Dimension) (directions directions' : OrdMap Dimension Direction) : Prop :=
  (IterationSpace.ofDirections (.ofList (directions.entries.map fun e => (e.1.root, e.2)))).Flipped
    d (.ofDirections (.ofList (directions'.entries.map fun e => (e.1.root, e.2))))

section Directions

variable {directions directions' : OrdMap Dimension Direction}

theorem turnsAround_insert (hd : d.root = d) (hkeys : ∀ e ∈ directions.keys, e.root = e) :
    TurnsAround d directions
      (directions.insert d ((directions.find? d).getD .forward).flip) := by
  have hself {m : OrdMap Dimension Direction} (hm : ∀ e ∈ m.keys, e.root = e) (e : Dimension) :
      (IterationSpace.ofDirections (.ofList (m.entries.map fun e => (e.1.root, e.2)))).direction e =
        (m.find? e.root).getD .forward := by
    have hentries : m.entries.map (fun e => (e.1.root, e.2)) = m.entries := by
      refine (List.map_congr_left ?_).trans (List.map_id _)
      intro e he
      rw [hm e.1 (List.mem_map_of_mem he)]
      rfl
    unfold IterationSpace.direction IterationSpace.ofDirections
    rw [hentries]
    congr 1
    ext dir
    rw [OrdMap.find?_ofList_iff m.nodup_keys, OrdMap.find?_eq_some_iff]
  have hkeys' : ∀ e ∈ (directions.insert d ((directions.find? d).getD .forward).flip).keys,
      e.root = e := by
    intro e he
    rw [OrdMap.mem_keys, OrdMap.find?_insert] at he
    by_cases hde : d = e
    · rw [← hde, hd]
    · rw [if_neg hde] at he
      exact hkeys e (OrdMap.mem_keys.2 he)
  intro e
  rw [hself hkeys', hself hkeys, OrdMap.find?_insert]
  by_cases he : e.root = d
  · rw [if_pos he.symm, if_pos he, Option.getD_some, he]
  · rw [if_neg (Ne.symm he), if_neg he]

theorem flipped_iterationSpace (h : TurnsAround d directions directions') (eq eq' : Equation)
    (slots slots' : OrdMap Dimension (List Slot)) :
    (eq.iterationSpace slots directions).Flipped d (eq'.iterationSpace slots' directions') := by
  unfold IterationSpace.Flipped
  rw [direction_iterationSpace, direction_iterationSpace]
  exact h

theorem flipped_jointSpace (h : TurnsAround d directions directions') {eqs eqs' : List Equation}
    (heqs : eqs ≠ []) (heqs' : eqs' ≠ []) :
    (jointSpace eqs directions).Flipped d (jointSpace eqs' directions') := by
  have hdirection {eqs : List Equation} {directions : OrdMap Dimension Direction} (hne : eqs ≠ []) :
      (jointSpace eqs directions).direction = (IterationSpace.ofDirections
        (.ofList (directions.entries.map fun e => (e.1.root, e.2)))).direction := by
    apply IterationSpace.direction_union
    · simpa using hne
    · intro s hs
      obtain ⟨eq, -, rfl⟩ := List.mem_map.1 hs
      exact direction_iterationSpace _ directions eq
  unfold IterationSpace.Flipped
  rw [hdirection heqs, hdirection heqs']
  exact h

end Directions

end Equation

end Stencil
