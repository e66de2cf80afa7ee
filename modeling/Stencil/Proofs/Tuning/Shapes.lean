import Stencil.Proofs.Analysis
import Stencil.Proofs.OrdMap
import Stencil.Tuning.BlockShape

/-!
This module contains what all shapes that are worth a trial have in common: they give sizes to the
same names. So what is bound by one shape is bound again by the next one.
-/

namespace Stencil.Tuning

namespace BlockShape

def names (s : BlockShape) : List String := s.sizes.map (·.1)

@[simp]
theorem names_uniform (ps : List Parameter) (size : Int) :
    (uniform ps size).names = ps.map (·.name) := by
  unfold uniform names
  rw [List.map_map]
  rfl

theorem names_ofSizes {ps : List Parameter} {sizes : List Int} (h : ps.length ≤ sizes.length) :
    (ofSizes ps sizes).names = ps.map (·.name) := by
  unfold ofSizes names
  rw [List.map_map]
  show (ps.zip sizes).map ((·.name) ∘ Prod.fst) = _
  rw [← List.map_map, List.map_fst_zip h]

@[simp]
theorem names_double (s : BlockShape) (positions : List Nat) :
    (s.double positions).value.names = s.names := by
  have hsizes : s.sizes = s.sizes.zipIdx.map (·.1) := (List.zipIdx_map_fst 0 s.sizes).symm
  unfold double names
  rw [Checked.value_bind, Checked.value_pure, Checked.value_mapM, List.map_map]
  conv_rhs => rw [hsizes, List.map_map]
  apply List.map_congr_left
  intro e _
  dsimp only [Function.comp_apply]
  split <;> rfl

@[simp]
theorem names_withLastOf (s t : BlockShape) : (s.withLastOf t).names = s.names := by
  unfold withLastOf
  split
  · next name size size' hs ht =>
    obtain ⟨sizes, hsizes⟩ := List.getLast?_eq_some_iff.1 hs
    simp [names, hsizes]
  · rfl

theorem mem_insertAfter {s t x : BlockShape} {shapes : List BlockShape}
    (h : x ∈ insertAfter s t shapes) : x = t ∨ x ∈ shapes := by
  induction shapes with
  | nil => exact .inl (List.mem_singleton.1 h)
  | cons s' shapes ih =>
    rw [insertAfter] at h
    split at h
    · grind
    · rcases List.mem_cons.1 h with rfl | h
      · exact .inr (List.mem_cons_self ..)
      · exact (ih h).imp_right (List.mem_cons_of_mem _)

section Names

variable {ps : List Parameter} {ns : List String} {shapes : List BlockShape}

theorem names_of_mem_ramp {n : Nat} {s : BlockShape} (hs : s.names = ns)
    (hshapes : ∀ x ∈ shapes, x.names = ns) :
    ∀ x ∈ (ramp ps n s shapes).value, x.names = ns := by
  induction n generalizing s shapes with
  | zero => exact hshapes
  | succ n ih =>
    rw [ramp, Checked.value_bind]
    have hdouble : (s.double (List.range ps.length)).value.names = ns := by
      rw [names_double, hs]
    apply ih hdouble
    intro x hx
    rcases mem_insertAfter hx with rfl | hx
    · exact hdouble
    · exact hshapes x hx

theorem names_of_mem_partialDoubles {s x : BlockShape} (h : x ∈ s.partialDoubles.value) :
    x.names = s.names := by
  unfold partialDoubles at h
  rw [Checked.value_mapM, List.mem_map] at h
  obtain ⟨positions, -, rfl⟩ := h
  exact names_double s positions

theorem names_of_mem_enrich {largest : Int} (hps : ps.map (·.name) = ns)
    (hshapes : ∀ x ∈ shapes, x.names = ns) :
    ∀ x ∈ (enrich ps largest shapes).value, x.names = ns := by
  unfold enrich
  simp only [Checked.value_bind, Checked.value_pure, Checked.value_mapM]
  have hramp : ∀ x ∈ (ramp ps 3 (uniform ps largest) shapes).value, x.names = ns :=
    names_of_mem_ramp ((names_uniform ps largest).trans hps) hshapes
  intro x hx
  rw [List.mem_eraseDups, List.mem_append, List.mem_append] at hx
  rcases hx with (hx | hx) | hx
  · exact hramp x hx
  · simp only [List.mem_flatMap, List.mem_map] at hx
    obtain ⟨s, hs, t, -, rfl⟩ := hx
    rw [names_withLastOf]
    exact hramp s (List.mem_of_mem_take hs)
  · simp only [List.mem_flatten, List.mem_map] at hx
    obtain ⟨_, ⟨s, hs, rfl⟩, hx⟩ := hx
    rw [names_of_mem_partialDoubles hx]
    exact hramp s hs

theorem names_of_mem_candidates {limits : List Int} {o : Options}
    (hlength : ps.length ≤ limits.length) :
    ∀ x ∈ (candidates ps limits o).value, x.names = ps.map (·.name) := by
  have hshapes : ∀ x ∈ o.blockSizes.map (uniform ps) ++ [ofSizes ps limits],
      x.names = ps.map (·.name) := by
    intro x hx
    rw [List.mem_append, List.mem_map, List.mem_singleton] at hx
    rcases hx with ⟨size, -, rfl⟩ | rfl
    · exact names_uniform ps size
    · exact names_ofSizes hlength
  unfold candidates
  dsimp only
  split
  · exact names_of_mem_enrich rfl hshapes
  · exact hshapes

end Names

theorem find?_bind (s : BlockShape) (args : Arguments) (name : String) :
    (s.bind args).find? name =
      ((s.sizes.reverse.find? fun e => decide (e.1 = name)).map fun e => .int e.2).or
        (args.find? name) := by
  have hfold : s.bind args =
      (s.sizes.map fun e => (e.1, Argument.int e.2)).foldl (fun m e => m.insert e.1 e.2) args := by
    rw [List.foldl_map]
    rfl
  rw [hfold, OrdMap.find?_foldl_insert, ← List.map_reverse, List.find?_map, Option.map_map]
  rfl

theorem find?_bind_of_notMem {s : BlockShape} {name : String} (h : name ∉ s.names)
    (args : Arguments) : (s.bind args).find? name = args.find? name := by
  have hnone : (s.sizes.reverse.find? fun e => decide (e.1 = name)) = none := by
    rw [List.find?_eq_none]
    intro e he heq
    apply h
    rw [← of_decide_eq_true heq]
    exact List.mem_map_of_mem (List.mem_reverse.1 he)
  rw [find?_bind, hnone]
  rfl

theorem exists_find?_bind {s : BlockShape} {name : String} (h : name ∈ s.names) :
    ∃ size, ∀ args : Arguments, (s.bind args).find? name = some (.int size) := by
  obtain ⟨e, he, rfl⟩ := List.mem_map.1 h
  have hsome : (s.sizes.reverse.find? fun e' => decide (e'.1 = e.1)).isSome = true := by
    rw [List.find?_isSome]
    exact ⟨e, List.mem_reverse.2 he, decide_eq_true rfl⟩
  obtain ⟨e', he'⟩ := Option.isSome_iff_exists.1 hsome
  refine ⟨e'.2, ?_⟩
  intro args
  rw [find?_bind, he']
  rfl

theorem find?_bind_congr {s : BlockShape} {args args' : Arguments} {name : String}
    (h : name ∉ s.names → args.find? name = args'.find? name) :
    (s.bind args).find? name = (s.bind args').find? name := by
  by_cases hname : name ∈ s.names
  · obtain ⟨size, hsize⟩ := exists_find?_bind hname
    rw [hsize, hsize]
  · rw [find?_bind_of_notMem hname, find?_bind_of_notMem hname, h hname]

end BlockShape

end Stencil.Tuning
