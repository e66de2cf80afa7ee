import Stencil.Fusion
import Stencil.Proofs.Execution
import Stencil.Proofs.Loops
import Stencil.Proofs.Scope.Classify
import Stencil.Proofs.Scope.Uniform

/-!
This module contains the conditions of the verdicts about two clusters, and what a verdict says about
the instances of their equations.
-/

namespace Stencil

/-- A plain assignment to an array element, in which all indices are shifted dimensions. -/
structure Equation.UniformAssignment (eq : Equation) : Prop where
  isAssignment : eq.isIncrement = false
  isTensor : eq.isTensor = true
  unguarded : eq.guards.isEmpty = true
  uniform : ∀ r ∈ eq.references, OffsetVector.Uniform r.function.dimensions r.indices

instance (eq : Equation) : Decidable eq.UniformAssignment :=
  decidable_of_iff
    (eq.isIncrement = false ∧ eq.isTensor = true ∧ eq.guards.isEmpty = true ∧
      ∀ r ∈ eq.references, OffsetVector.Uniform r.function.dimensions r.indices)
    ⟨fun ⟨ha, ht, hu, h⟩ => ⟨ha, ht, hu, h⟩,
      fun h => ⟨h.isAssignment, h.isTensor, h.unguarded, h.uniform⟩⟩

def Equation.Independent (e e' : Equation) : Prop :=
  ∀ r ∈ e.references, ∀ r' ∈ e'.references, (e.write? = some r ∨ e'.write? = some r') →
    r.function ≠ r'.function

theorem Equation.Independent.symm {e e' : Equation} (h : e.Independent e') : e'.Independent e :=
  fun r hr r' hr' hwrite hfunction => h r' hr' r hr hwrite.symm hfunction.symm

/--
What `e'` reads at some point, `e` only writes at a later point if it also writes it at the same
point.
-/
def Equation.Separated (space : IterationSpace) (e e' : Equation) : Prop :=
  ∀ w, e.write? = some w → ∀ r ∈ e'.reads, ∀ p q : Point,
    p.coordinates space.loops < q.coordinates space.loops → r.cell p = w.cell q →
      r.cell p = w.cell p

theorem Reference.cell_congr {r : Reference} {p q : Point}
    (h : ∀ d ∈ r.function.dimensions, p d.root = q d.root) : r.cell p = r.cell q := by
  unfold cell OffsetVector.cell
  congr 1
  apply List.ext_getElem
  · simp
  · intro i hi _
    have hdim : i < r.function.dimensions.length := by
      rw [List.length_zipWith] at hi
      omega
    simp only [List.getElem_zipWith, Point.extend]
    rw [h _ (List.getElem_mem hdim)]

theorem Dependence.isCarried_of_sign? {d : Dependence} {is : List Int}
    (hdistance : d.distance = .ofInts is) (hsign : OffsetVector.sign? (.ofInts is) = some .gt) :
    d.isCarried.value = true := by
  unfold isCarried
  rw [Checked.value_bind, Checked.value_pure, hdistance,
    OffsetVector.value_compareScalar?_ofInts, hsign]
  rfl

namespace Cluster

theorem mem_crossing {boundary : Nat} {ds : List Dependence} {d : Dependence} :
    d ∈ crossing boundary ds ↔ d ∈ ds ∧
      (d.source.timestamp < boundary ∧ boundary ≤ d.sink.timestamp ∨
        boundary ≤ d.source.timestamp ∧ d.sink.timestamp < boundary) := by
  unfold crossing
  rw [List.mem_filter, bne_iff_ne, Ne, decide_eq_decide]
  apply and_congr_right
  intro _
  omega

variable {earlier c : Cluster} {s : Scope}

structure Fusible (earlier c : Cluster) (s : Scope) : Prop where
  unguarded : earlier.guards.isEmpty = true
  iterationSpace : earlier.iterationSpace = c.iterationSpace
  anti : ∀ d ∈ crossing earlier.equations.length s.anti,
    d.isCarried.value = true → d.isIncrement = true
  flow : ∀ d ∈ crossing earlier.equations.length s.flow, ∀ x, d.cause = some x →
    earlier.atomics.contains x = true → d.isIncrement = true

section Conditions

variable {boundary : Nat} {ds : List Dependence} {d : Dependence}

theorem mem_difference_carried :
    d ∈ Dependence.difference (Dependence.carried ds).value (ds.filter (·.isIncrement)) ↔
      d ∈ ds ∧ d.isCarried.value = true ∧ d.isIncrement = false := by
  unfold Dependence.difference Dependence.carried
  rw [Checked.value_filterM, List.mem_filter, List.mem_filter, Bool.not_eq_true',
    ← Bool.not_eq_true, List.contains_iff_mem, List.mem_filter]
  grind

theorem mem_difference_crossing :
    d ∈ Dependence.difference (crossing boundary ds)
        ((crossing boundary ds).filter (·.isInPlace) ++
          (crossing boundary ds).filter (·.isIncrement)) ↔
      d ∈ crossing boundary ds ∧ d.isIncrement = false := by
  have hplace (hd : d ∈ crossing boundary ds) : d.isInPlace = false := by
    have hne : d.source.timestamp ≠ d.sink.timestamp := by
      have := (mem_crossing.1 hd).2
      omega
    unfold Dependence.isInPlace
    rw [beq_eq_false_iff_ne.2 hne, Bool.and_false]
  unfold Dependence.difference
  rw [List.mem_filter, Bool.not_eq_true', ← Bool.not_eq_true, List.contains_iff_mem,
    List.mem_append, List.mem_filter, List.mem_filter]
  grind

theorem any_causes {atomics : OrdSet Dimension} :
    (Dependence.causes ds).toList.any atomics.contains = true ↔
      ∃ d ∈ ds, ∃ x, d.cause = some x ∧ atomics.contains x = true := by
  unfold Dependence.causes OrdSet.toList
  rw [List.any_eq_true]
  have hmem (x : Dimension) : x ∈ OrdMap.keys (OrdSet.ofList (ds.filterMap (·.cause))) ↔
      ∃ d ∈ ds, d.cause = some x := by
    rw [OrdMap.mem_keys, ← Option.isSome_iff_exists, ← List.mem_filterMap]
    exact Eq.to_iff (congrArg (· = true) (OrdSet.contains_ofList _ x)) |>.trans decide_eq_true_iff
  constructor
  · rintro ⟨x, hx, hatomic⟩
    obtain ⟨d, hd, hcause⟩ := (hmem x).1 hx
    exact ⟨d, hd, x, hcause, hatomic⟩
  · rintro ⟨d, hd, x, hcause, hatomic⟩
    exact ⟨x, (hmem x).2 ⟨d, hd, hcause⟩, hatomic⟩

end Conditions

theorem judge_cases (hs : (earlier.jointScope c).run.value = .ok s) :
    Fusible earlier c s ∧ (judge earlier c).run.value = .ok .fuse ∨
    ¬ Fusible earlier c s ∧ crossing earlier.equations.length s.dependences ≠ [] ∧
      (∃ atomics, (judge earlier c).run.value = .ok (.stay atomics)) ∨
    ¬ Fusible earlier c s ∧ crossing earlier.equations.length s.dependences = [] ∧
      (judge earlier c).run.value = .ok .pass := by
  unfold judge
  rw [Analysis.value_bind_of_ok hs]
  dsimp only
  rw [Analysis.value_bind_of_ok (Analysis.value_lift _)]
  have hanti : (Dependence.difference
      (Dependence.carried (crossing earlier.equations.length s.anti)).value
      ((crossing earlier.equations.length s.anti).filter (·.isIncrement))).isEmpty = true ↔
        ∀ d ∈ crossing earlier.equations.length s.anti,
          d.isCarried.value = true → d.isIncrement = true := by
    rw [List.isEmpty_iff, List.eq_nil_iff_forall_not_mem]
    simp only [mem_difference_carried]
    grind
  have hflow : (!(Dependence.causes (Dependence.difference
      (crossing earlier.equations.length s.flow)
      ((crossing earlier.equations.length s.flow).filter (·.isInPlace) ++
        (crossing earlier.equations.length s.flow).filter (·.isIncrement)))).toList.any
          earlier.atomics.contains) = true ↔
        ∀ d ∈ crossing earlier.equations.length s.flow, ∀ x, d.cause = some x →
          earlier.atomics.contains x = true → d.isIncrement = true := by
    rw [Bool.not_eq_true', ← Bool.not_eq_true, any_causes]
    simp only [mem_difference_crossing]
    grind
  split
  · next hif =>
    rw [Bool.and_eq_true, Bool.and_eq_true, Bool.and_eq_true, beq_iff_eq, hanti, hflow] at hif
    obtain ⟨⟨⟨hguards, hspace⟩, hanti⟩, hflow⟩ := hif
    exact .inl ⟨⟨hguards, hspace, hanti, hflow⟩, rfl⟩
  · next hif =>
    rw [Bool.and_eq_true, Bool.and_eq_true, Bool.and_eq_true, beq_iff_eq, hanti, hflow] at hif
    have hnot : ¬ Fusible earlier c s := fun h =>
      hif ⟨⟨⟨h.unguarded, h.iterationSpace⟩, h.anti⟩, h.flow⟩
    right
    split
    · next hreversed =>
      rw [Bool.not_eq_true', ← Bool.not_eq_true, List.isEmpty_iff] at hreversed
      obtain ⟨d, hd⟩ := List.exists_mem_of_ne_nil _ hreversed
      obtain ⟨hmem, hcross⟩ := mem_crossing.1 (mem_difference_carried.1 hd).1
      have hcrossing : d ∈ crossing earlier.equations.length s.dependences := by
        rw [mem_crossing]
        exact ⟨List.mem_append_left _ (List.mem_append_right _ hmem), hcross⟩
      exact .inl ⟨hnot, List.ne_nil_of_mem hcrossing, _, rfl⟩
    · split
      · next hempty => exact .inr ⟨hnot, List.isEmpty_iff.1 hempty, rfl⟩
      · next hempty => exact .inl ⟨hnot, fun h => hempty (List.isEmpty_iff.2 h), _, rfl⟩

theorem exists_jointScope_of_judge {v : Verdict} (h : (judge earlier c).run.value = .ok v) :
    ∃ s, (earlier.jointScope c).run.value = .ok s := by
  unfold judge at h
  rw [Analysis.value_bind_eq_ok] at h
  obtain ⟨s, hs, -⟩ := h
  exact ⟨s, hs⟩

theorem fusible_of_fuse (h : (judge earlier c).run.value = .ok .fuse) :
    ∃ s, (earlier.jointScope c).run.value = .ok s ∧ Fusible earlier c s := by
  obtain ⟨s, hs⟩ := exists_jointScope_of_judge h
  refine ⟨s, hs, ?_⟩
  rcases judge_cases hs with ⟨hfusible, -⟩ | ⟨-, -, atomics, hstay⟩ | ⟨-, -, hpass⟩
  · exact hfusible
  · rw [h] at hstay
    cases hstay
  · rw [h] at hpass
    cases hpass

theorem crossing_of_pass (h : (judge earlier c).run.value = .ok .pass) :
    ∃ s, (earlier.jointScope c).run.value = .ok s ∧
      crossing earlier.equations.length s.dependences = [] := by
  obtain ⟨s, hs⟩ := exists_jointScope_of_judge h
  refine ⟨s, hs, ?_⟩
  rcases judge_cases hs with ⟨-, hfuse⟩ | ⟨-, -, atomics, hstay⟩ | ⟨-, hempty, -⟩
  · rw [h] at hfuse
    cases hfuse
  · rw [h] at hstay
    cases hstay
  · exact hempty

theorem exists_timestamp_earlier {e : Equation} (he : e ∈ earlier.equations) :
    ∃ t < earlier.equations.length, (earlier.equations.map (·, earlier.iterationSpace) ++
      c.equations.map (·, c.iterationSpace))[t]? = some (e, earlier.iterationSpace) := by
  obtain ⟨t, ht, heq⟩ := List.getElem_of_mem he
  refine ⟨t, ht, ?_⟩
  rw [List.getElem?_append_left (by simpa using ht), List.getElem?_map, List.getElem?_eq_getElem ht,
    heq]
  rfl

theorem exists_timestamp_later {e : Equation} (he : e ∈ c.equations) :
    ∃ t, earlier.equations.length ≤ t ∧ (earlier.equations.map (·, earlier.iterationSpace) ++
      c.equations.map (·, c.iterationSpace))[t]? = some (e, c.iterationSpace) := by
  obtain ⟨t, ht, heq⟩ := List.getElem_of_mem he
  refine ⟨earlier.equations.length + t, Nat.le_add_right _ _, ?_⟩
  rw [List.getElem?_append_right (by simp), List.length_map, Nat.add_sub_cancel_left,
    List.getElem?_map, List.getElem?_eq_getElem ht, heq]
  rfl

theorem uniform_jointScope (hall : ∀ e ∈ earlier.equations ++ c.equations, e.UniformAssignment) :
    ∀ e ∈ earlier.equations.map (·, earlier.iterationSpace) ++
      c.equations.map (·, c.iterationSpace), ∀ r ∈ e.1.references,
        OffsetVector.Uniform r.function.dimensions r.indices := by
  intro e he
  have hmem : e.1 ∈ earlier.equations ++ c.equations := by
    rw [List.mem_append, List.mem_map, List.mem_map] at he
    rw [List.mem_append]
    rcases he with ⟨e, he, rfl⟩ | ⟨e, he, rfl⟩
    · exact .inl he
    · exact .inr he
  exact (hall _ hmem).uniform

theorem independent_of_pass (h : (judge earlier c).run.value = .ok .pass)
    (hall : ∀ e ∈ earlier.equations ++ c.equations, e.UniformAssignment) {e e' : Equation}
    (he : e ∈ earlier.equations) (he' : e' ∈ c.equations) : e.Independent e' := by
  intro r hr r' hr' hwrite hfunction
  obtain ⟨s, hs, hcrossing⟩ := crossing_of_pass h
  obtain ⟨t, ht, hget⟩ := exists_timestamp_earlier he
  obtain ⟨t', ht', hget'⟩ := exists_timestamp_later he'
  obtain ⟨mode, ha, hmode⟩ := Scope.exists_entry hs hget hr
  obtain ⟨mode', hb, hmode'⟩ := Scope.exists_entry hs hget' hr'
  rw [← hfunction] at hb
  have hkind : ∃ kind, DependenceKind.ofModes mode mode' = some kind := by
    rcases hwrite with hw | hw
    · rw [hmode hw]
      cases mode' <;> exact ⟨_, rfl⟩
    · rw [hmode' hw]
      cases mode <;> exact ⟨_, rfl⟩
  obtain ⟨kind, hkind⟩ := hkind
  have huniform := uniform_jointScope hall
  have hmatched := Scope.matched_of_isUniform hs ha hb (Scope.isUniform_of_mem hs huniform ha)
    (Scope.isUniform_of_mem hs huniform hb) (Scope.aligned_of_ofModes hs ha hb hkind)
  obtain ⟨kind', hdepends⟩ := Scope.exists_depends hs ha hb hkind hmatched (by
    show t ≠ t'
    omega)
  have hnone : ∀ d ∈ s.dependences, d ∉ crossing earlier.equations.length s.dependences := by
    rw [hcrossing]
    simp
  rcases hdepends with ⟨d, hd, -, hsource, hsink⟩ | ⟨d, hd, -, hsource, hsink⟩
  · apply hnone d hd
    rw [mem_crossing, hsource, hsink]
    exact ⟨hd, .inl ⟨ht, ht'⟩⟩
  · apply hnone d hd
    rw [mem_crossing, hsource, hsink]
    exact ⟨hd, .inr ⟨ht', ht⟩⟩

theorem separated_of_fuse (h : (judge earlier c).run.value = .ok .fuse)
    (hall : ∀ e ∈ earlier.equations ++ c.equations, e.UniformAssignment) {e e' : Equation}
    (he : e ∈ earlier.equations) (he' : e' ∈ c.equations)
    (hloops : earlier.iterationSpace.dimensions = e.loops) :
    e.Separated earlier.iterationSpace e' := by
  intro w hw r hr p q hlt hcell
  obtain ⟨s, hs, hfusible⟩ := fusible_of_fuse h
  obtain ⟨t, ht, hget⟩ := exists_timestamp_earlier he
  obtain ⟨t', ht', hget'⟩ := exists_timestamp_later he'
  obtain ⟨hfunction, hindices⟩ := Prod.mk.inj hcell
  have hwrite := Scope.mem_writes hs hget hw
  have hread := Scope.mem_reads hs hget' hr
  rw [hfunction] at hread
  have ha := List.mem_append_right (s.writes.of w.function) hread
  have hb := List.mem_append_left (s.reads.of w.function) hwrite
  have hwmem : w ∈ e.references := List.mem_append_left _ (by simp [hw])
  have hwuniform := (hall e (List.mem_append_left _ he)).uniform w hwmem
  rcases Equation.coordinates_written hw hwuniform hloops hlt with hlt | heq
  · -- The write depends on the read at a positive distance, which is not fused.
    exfalso
    rw [← hfunction, hfusible.iterationSpace] at hlt
    have huniform := uniform_jointScope hall
    have hmodes : DependenceKind.ofModes .read .write = some .anti := rfl
    obtain ⟨d, hd, hkind, hsource, hsink, hdistance⟩ :=
      Scope.exists_dependence hs ha hb (Scope.isUniform_of_mem hs huniform ha)
        (Scope.isUniform_of_mem hs huniform hb) hmodes (p := p.extend) (q := q.extend) hlt hindices
    have hdanti : d ∈ s.anti :=
      (Scope.ofEquations_eq_ok hs).2.2.mem_dependences_iff.1 ⟨hd, hkind⟩
    have hcrossing : d ∈ crossing earlier.equations.length s.anti := by
      rw [mem_crossing, hsource, hsink]
      exact ⟨hdanti, .inr ⟨ht', ht⟩⟩
    have hsign := (OffsetVector.sign?_coordinates_eq_gt _ p.extend q.extend).2 hlt
    have hincrement := hfusible.anti d hcrossing (Dependence.isCarried_of_sign? hdistance hsign)
    unfold Dependence.isIncrement at hincrement
    rw [hsource, Bool.and_eq_true] at hincrement
    have hassignment := (hall e' (List.mem_append_right _ he')).isAssignment
    exact Bool.false_ne_true (hassignment.symm.trans hincrement.1)
  · rw [hcell]
    exact (Reference.cell_congr heq).symm

end Cluster

end Stencil
