import Stencil.Halo.Scheme
import Stencil.Proofs.Scope.Basic

/-!
This module contains what has happened when a halo scheme was built: all dependences passed their
check, and the entry of each array comes from its labels.
-/

namespace Stencil

namespace Equation

def jointData (eqs : List Equation) : DataSpace := .union (eqs.map fun eq => eq.dataSpace.value)

def jointSpace (eqs : List Equation) (directions : OrdMap Dimension Direction) : IterationSpace :=
  .union (eqs.map (iterationSpace (Slot.collect eqs).value directions))

theorem ofLowered_lowerAll (eqs : List Equation) (directions : OrdMap Dimension Direction) :
    HaloScheme.ofLowered (lowerAll eqs directions).value =
      HaloScheme.ofEquations eqs (jointSpace eqs directions) (jointData eqs) := by
  unfold HaloScheme.ofLowered
  rw [map_equation_lowerAll, value_lowerAll, List.map_map, List.map_map]
  rfl

end Equation

namespace Halo

theorem check_eq_ok {s : Scope} {u : Unit} :
    check s = .ok u ↔ ∀ d ∈ s.dependences, checkDependence d = .ok () := by
  unfold check
  induction s.dependences with
  | nil => simp [List.forM, pure, Except.pure]
  | cons d ds ih =>
    rw [List.forM, List.forall_mem_cons, ← ih]
    cases checkDependence d <;> simp [bind, Except.bind]

theorem grid_of_checkDependence {d : Dependence} (h : checkDependence d = .ok ())
    (htensor : d.function.isTensor = true) :
    ∃ grid, d.function.grid = some grid ∧ ∀ cause, d.cause = some cause → d.isIndirect = false →
      grid.isDistributed cause = false := by
  unfold checkDependence at h
  rw [if_pos htensor] at h
  split at h
  · cases h
  · next grid hgrid =>
    refine ⟨grid, hgrid, ?_⟩
    intro cause hcause hdirect
    rw [hcause, hdirect] at h
    dsimp only at h
    split at h
    · cases h
    · next hnot => simpa using hnot

theorem value_along (space : Option DataSpace) (f : GridFunction) (ds : List Dimension) :
    (along space f ds).value =
      ds.flatMap fun d => ofWidths d (reach space f d).value.1 (reach space f d).value.2 := by
  unfold along
  simp only [Checked.value_bind, Checked.value_mapM, Checked.value_pure, List.flatMap_def]

end Halo

namespace HaloScheme

def halos (hs : HaloScheme) (f : GridFunction) : List Halo :=
  ((hs.entries.find? f).map HaloEntry.halos).getD []

def labelledHalos (data : DataSpace) (f : GridFunction) (labels : OrdMap Dimension HaloLabel) :
    List Halo :=
  (Halo.along (some data) f (labelled labels .stencil)).value ++
    (Halo.along none f (labelled labels .full)).value

theorem mem_labelled {labels : OrdMap Dimension HaloLabel} {l : HaloLabel} {d : Dimension} :
    d ∈ labelled labels l ↔ labels.find? d = some l := by
  unfold labelled
  simp [OrdMap.mem_keys, OrdMap.find?_filter, Option.filter_eq_some_iff]

theorem nodup_labelled (labels : OrdMap Dimension HaloLabel) (l : HaloLabel) :
    (labelled labels l).Nodup :=
  OrdMap.nodup_keys _

theorem exchange?_eq_ok {space : IterationSpace} {data : DataSpace} {scope : Scope}
    {f : GridFunction} {labels : OrdMap Dimension HaloLabel} {o : Option HaloEntry}
    (h : (exchange? space data scope f labels).run.value = .ok o) :
    (o.map HaloEntry.halos).getD [] = labelledHalos data f labels ∧
      (o.isSome = true ↔ labelledHalos data f labels ≠ []) := by
  unfold exchange? at h
  rw [Analysis.value_bind_eq_ok] at h
  obtain ⟨stencil, hstencil, h⟩ := h
  rw [Analysis.value_bind_eq_ok] at h
  obtain ⟨full, hfull, h⟩ := h
  have hhalos : stencil ++ full = labelledHalos data f labels := by
    rw [← Except.ok.inj hstencil, ← Except.ok.inj hfull]
    rfl
  rw [hhalos] at h
  split at h
  · next hnil =>
    obtain rfl := Except.ok.inj h
    simp [hnil]
  · next hne =>
    rw [Analysis.value_bind_eq_ok] at h
    obtain ⟨indices, -, h⟩ := h
    obtain rfl := Except.ok.inj h
    simpa using hne

/--
A scheme, the dependences that passed their check, and the labels that its entries come from. An
array has the entry that its labels ask for, and none if it has no labels.
-/
structure Built (eqs : List Equation) (space : IterationSpace) (data : DataSpace)
    (hs : HaloScheme) (scope : Scope) (classification : Halo.Classification) : Prop where
  scope_eq : (Scope.ofEquations (eqs.map (·, space))).run.value = .ok scope
  check_eq : Halo.check scope = .ok ()
  classify_eq : (Halo.classify scope).run.value = .ok (classification, hs.diagnostics)
  entry_eq : ∀ f labels, classification.find? f = some labels →
    (exchange? space data scope f labels).run.value = .ok (hs.entries.find? f)
  absent : ∀ f, classification.find? f = none → hs.entries.find? f = none

theorem find?_ofList_filterMap {entries : List (GridFunction × Option HaloEntry)}
    (hnodup : (entries.map (·.1)).Nodup) {f : GridFunction} {entry : HaloEntry} :
    (OrdMap.ofList (entries.filterMap fun e => e.2.map fun entry => (e.1, entry))).find? f =
      some entry ↔ (f, some entry) ∈ entries := by
  have hkeys : ((entries.filterMap fun e => e.2.map fun entry => (e.1, entry)).map
      (·.1)).Nodup := by
    rw [List.Nodup, List.pairwise_map] at hnodup ⊢
    apply hnodup.filterMap
    rintro ⟨g, o⟩ ⟨g', o'⟩ hne a ha b hb
    obtain ⟨_, -, rfl⟩ := Option.map_eq_some_iff.1 ha
    obtain ⟨_, -, rfl⟩ := Option.map_eq_some_iff.1 hb
    exact hne
  rw [OrdMap.find?_ofList_iff hkeys, List.mem_filterMap]
  constructor
  · rintro ⟨⟨g, o⟩, hmem, heq⟩
    obtain ⟨_, rfl, heq⟩ := Option.map_eq_some_iff.1 heq
    obtain ⟨rfl, rfl⟩ := Prod.mk.inj heq
    exact hmem
  · intro hmem
    exact ⟨_, hmem, rfl⟩

theorem exists_built {eqs : List Equation} {space : IterationSpace} {data : DataSpace}
    {hs : HaloScheme} (h : (ofEquations eqs space data).run.value = .ok hs) :
    ∃ scope classification, Built eqs space data hs scope classification := by
  unfold ofEquations at h
  rw [Analysis.value_bind_eq_ok] at h
  obtain ⟨scope, hscope, h⟩ := h
  rw [Analysis.value_bind_eq_ok] at h
  obtain ⟨_, hcheck, h⟩ := h
  rw [Analysis.value_bind_eq_ok] at h
  obtain ⟨⟨classification, diagnostics⟩, hclassify, h⟩ := h
  dsimp only at h
  rw [Analysis.value_bind_eq_ok] at h
  obtain ⟨entries, hentries, h⟩ := h
  obtain rfl := Except.ok.inj h
  have hrelated : List.Forall₂ (fun e o => e.1 = o.1 ∧
      (exchange? space data scope e.1 e.2).run.value = .ok o.2) classification.entries entries := by
    rw [Analysis.value_mapM_eq_ok] at hentries
    apply hentries.imp
    intro e o ho
    rw [Analysis.value_bind_eq_ok] at ho
    obtain ⟨entry, hentry, ho⟩ := ho
    obtain rfl := Except.ok.inj ho
    exact ⟨rfl, hentry⟩
  have hkeys : classification.keys = entries.map (·.1) := by
    rw [← List.forall₂_eq_eq_eq]
    unfold OrdMap.keys
    rw [List.forall₂_map_left_iff, List.forall₂_map_right_iff]
    exact hrelated.imp fun _ _ hderived => hderived.1
  have hnodup : (entries.map (·.1)).Nodup := hkeys ▸ classification.nodup_keys
  refine ⟨scope, classification, Analysis.value_adapt_eq_ok.1 hscope, hcheck, hclassify, ?_, ?_⟩
  · intro f labels hlabels
    obtain ⟨⟨g, o⟩, hmem, hg, hentry⟩ :=
      exists_mem_right hrelated (OrdMap.find?_eq_some_iff.1 hlabels)
    obtain rfl : f = g := hg
    rw [hentry, Except.ok.injEq]
    -- The keys are distinct, so the entry of `f` is the one that was derived from its labels.
    ext entry
    rw [find?_ofList_filterMap hnodup]
    constructor
    · rintro rfl
      exact hmem
    · intro hmem'
      exact (Prod.mk.inj (List.inj_on_of_nodup_map hnodup hmem hmem' rfl)).2
  · intro f hf
    rw [Option.eq_none_iff_forall_ne_some]
    intro entry hentry
    rw [find?_ofList_filterMap hnodup] at hentry
    rw [OrdMap.find?_eq_none_iff, hkeys] at hf
    exact hf (List.mem_map_of_mem hentry)

theorem Built.halos_eq {eqs : List Equation} {space : IterationSpace} {data : DataSpace}
    {hs : HaloScheme} {scope : Scope} {classification : Halo.Classification}
    (h : Built eqs space data hs scope classification) {f : GridFunction}
    {labels : OrdMap Dimension HaloLabel} (hlabels : classification.find? f = some labels) :
    hs.halos f = labelledHalos data f labels ∧
      ((hs.entries.find? f).isSome = true ↔ hs.halos f ≠ []) := by
  obtain ⟨hhalos, hsome⟩ := exchange?_eq_ok (h.entry_eq f labels hlabels)
  unfold halos
  rw [hhalos]
  exact ⟨rfl, hsome⟩

end HaloScheme

end Stencil
