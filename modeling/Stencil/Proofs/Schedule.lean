import Stencil.Proofs.Fusion.Judge
import Stencil.Proofs.Halo.Basic
import Stencil.Proofs.Problem
import Stencil.Proofs.Temporaries.Compact
import Stencil.Schedule

/-!
This module contains the fact that the analyses behind a schedule never fail on a problem that has
been loaded. Only halo exchanges may turn out to be impossible.
-/

namespace Stencil

namespace Equation

theorem direction_iterationSpace (slots : OrdMap Dimension (List Slot))
    (directions : OrdMap Dimension Direction) (eq : Equation) :
    (eq.iterationSpace slots directions).direction =
      (IterationSpace.ofDirections
        (.ofList (directions.entries.map fun e => (e.1.root, e.2)))).direction := by
  have hfold (ds : List Dimension) (m : OrdMap Dimension Direction) (k : Dimension) :
      ((ds.foldl (fun m d => m.alter d fun dir => dir.getD .forward) m).find? k).getD .forward =
        (m.find? k).getD .forward := by
    induction ds generalizing m with
    | nil => rfl
    | cons d ds ih =>
      rw [List.foldl_cons, ih, OrdMap.find?_alter]
      by_cases hd : d = k
      · simp [hd]
      · simp [hd]
  funext d
  exact hfold eq.loops _ d.root

end Equation

namespace Cluster

structure Analysable (direction : Dimension → Direction) (c : Cluster) : Prop where
  complete : ∀ eq ∈ c.equations, eq.AllReferences Reference.Complete
  direction_eq : c.iterationSpace.direction = direction

variable {direction : Dimension → Direction} {c d : Cluster}

theorem Analysable.complete_references (h : c.Analysable direction) {eq : Equation}
    (heq : eq ∈ c.equations) {r : Reference} (hr : r ∈ eq.references) : r.Complete :=
  h.complete eq heq r (Equation.mem_of_mem_references hr)

theorem Analysable.exists_scope (hc : c.Analysable direction) :
    ∃ s, (Scope.ofEquations (c.equations.map (·, c.iterationSpace))).run.value = .ok s := by
  apply Scope.exists_ofEquations
  · intro e he r hr
    obtain ⟨eq, heq, rfl⟩ := List.mem_map.1 he
    exact hc.complete_references heq hr
  · intro e he
    obtain ⟨eq, -, rfl⟩ := List.mem_map.1 he
    exact hc.direction_eq

theorem exists_jointScope (hc : c.Analysable direction) (hd : d.Analysable direction) :
    ∃ s, (c.jointScope d).run.value = .ok s := by
  apply Scope.exists_ofEquations
  · intro e he r hr
    rcases List.mem_append.1 he with he | he
    · obtain ⟨eq, heq, rfl⟩ := List.mem_map.1 he
      exact hc.complete_references heq hr
    · obtain ⟨eq, heq, rfl⟩ := List.mem_map.1 he
      exact hd.complete_references heq hr
  · intro e he
    rcases List.mem_append.1 he with he | he
    · obtain ⟨eq, -, rfl⟩ := List.mem_map.1 he
      exact hc.direction_eq
    · obtain ⟨eq, -, rfl⟩ := List.mem_map.1 he
      exact hd.direction_eq

theorem exists_judge (hc : c.Analysable direction) (hd : d.Analysable direction) :
    ∃ v, (c.judge d).run.value = .ok v := by
  obtain ⟨s, hs⟩ := exists_jointScope hc hd
  unfold judge
  rw [Analysis.value_bind_of_ok hs]
  dsimp only
  rw [Analysis.value_bind_of_ok (Analysis.value_lift _)]
  split
  · exact ⟨_, rfl⟩
  · split
    · exact ⟨_, rfl⟩
    · split <;> exact ⟨_, rfl⟩

theorem mem_of_mem_addEquations {eqs new : List Equation} {eq : Equation}
    (h : eq ∈ addEquations eqs new) : eq ∈ eqs ∨ eq ∈ new := by
  unfold addEquations at h
  induction new generalizing eqs with
  | nil => exact .inl h
  | cons e new ih =>
    rw [List.foldl_cons] at h
    rcases ih h with h | h
    · split at h
      · exact .inl h
      · rcases List.mem_append.1 h with h | h
        · exact .inl h
        · rw [List.mem_singleton.1 h]
          exact .inr (List.mem_cons_self ..)
    · exact .inr (List.mem_cons_of_mem _ h)

theorem Analysable.absorb (hc : c.Analysable direction) (hd : d.Analysable direction) :
    (c.absorb d).Analysable direction where
  complete := by
    intro eq heq
    rcases mem_of_mem_addEquations heq with heq | heq
    · exact hc.complete eq heq
    · exact hd.complete eq heq
  direction_eq := hc.direction_eq

theorem exists_place {cs : List Cluster} (hd : d.Analysable direction)
    (hcs : ∀ c ∈ cs, c.Analysable direction) :
    ∃ p, (d.place cs).run.value = .ok p ∧
      ∀ cs', p = .joined cs' → ∀ c ∈ cs', c.Analysable direction := by
  induction cs with
  | nil => exact ⟨.alone .empty, rfl, nofun⟩
  | cons c cs ih =>
    rw [List.forall_mem_cons] at hcs
    obtain ⟨v, hv⟩ := exists_judge hcs.1 hd
    rw [place, Analysis.value_bind_of_ok hv]
    cases v with
    | fuse =>
      refine ⟨_, rfl, ?_⟩
      rintro _ ⟨⟩
      exact List.forall_mem_cons.2 ⟨hcs.1.absorb hd, hcs.2⟩
    | stay atomics => exact ⟨.alone atomics, rfl, nofun⟩
    | pass =>
      obtain ⟨p, hp, hjoined⟩ := ih hcs.2
      dsimp only
      rw [Analysis.value_bind_of_ok hp]
      cases p with
      | joined cs' =>
        refine ⟨_, rfl, ?_⟩
        rintro _ ⟨⟩
        exact List.forall_mem_cons.2 ⟨hcs.1, hjoined cs' rfl⟩
      | alone atomics => exact ⟨.alone atomics, rfl, nofun⟩

theorem exists_addLatest {cs : List Cluster} (hd : d.Analysable direction)
    (hcs : ∀ c ∈ cs, c.Analysable direction) :
    ∃ cs', (addLatest cs d).run.value = .ok cs' ∧ ∀ c ∈ cs', c.Analysable direction := by
  unfold addLatest
  split
  · obtain ⟨p, hp, hjoined⟩ := exists_place hd hcs
    rw [Analysis.value_bind_of_ok hp]
    cases p with
    | joined cs' => exact ⟨cs', rfl, hjoined cs' rfl⟩
    | alone atomics =>
      exact ⟨_, rfl, List.forall_mem_cons.2 ⟨⟨hd.complete, hd.direction_eq⟩, hcs⟩⟩
  · exact ⟨_, rfl, List.forall_mem_cons.2 ⟨hd, hcs⟩⟩

theorem exists_foldlM_addLatest {ds cs : List Cluster} (hds : ∀ d ∈ ds, d.Analysable direction)
    (hcs : ∀ c ∈ cs, c.Analysable direction) :
    ∃ cs', (ds.foldlM addLatest cs).run.value = .ok cs' ∧ ∀ c ∈ cs', c.Analysable direction := by
  induction ds generalizing cs with
  | nil => exact ⟨cs, rfl, hcs⟩
  | cons d ds ih =>
    rw [List.forall_mem_cons] at hds
    obtain ⟨cs', hcs', hall⟩ := exists_addLatest hds.1 hcs
    rw [List.foldlM_cons, Analysis.value_bind_of_ok hcs']
    exact ih hds.2 hall

theorem exists_ofProgram (fusion : Bool) {es : List LoweredEquation}
    (hes : ∀ e ∈ es, (ofLowered e).Analysable direction) :
    ∃ cs, (ofProgram fusion es).run.value = .ok cs ∧ ∀ c ∈ cs, c.Analysable direction := by
  have hall : ∀ c ∈ es.map ofLowered, c.Analysable direction := by
    simpa using hes
  unfold ofProgram
  cases fusion with
  | false => exact ⟨_, rfl, hall⟩
  | true =>
    obtain ⟨cs, hcs, hcs'⟩ := exists_foldlM_addLatest hall (fun c (hc : c ∈ []) => nomatch hc)
    refine ⟨cs.reverse, ?_, by simpa using hcs'⟩
    rw [if_pos rfl, fuseAll, Analysis.value_bind_of_ok hcs]
    rfl

theorem squash_of_fuse (h : (judge c d).run.value = .ok .fuse) : c.squash d = .ok (c.absorb d) := by
  obtain ⟨_, -, hfusible⟩ := fusible_of_fuse h
  unfold squash
  rw [if_pos hfusible.iterationSpace]

end Cluster

namespace Optimization

variable {direction : Dimension → Direction}

theorem allReferences_optimizeEquations {P : Reference → Prop} (first : Nat)
    {eqs : List Equation} (h : ∀ eq ∈ eqs, eq.AllReferences P) :
    ∀ eq ∈ (optimizeEquations first eqs).value.1, eq.AllReferences P := by
  have hmake (i : Nat) : (temporary (first + i)).references = [] := rfl
  unfold optimizeEquations
  simp only [Checked.value_bind, Checked.value_pure, List.partition_eq_filter_filter]
  apply Temporaries.allReferences_compact
  intro eq heq
  apply Temporaries.allReferences_eliminate hmake h
  rcases List.mem_append.1 heq with heq | heq
  · exact List.mem_of_mem_filter heq
  · exact List.mem_of_mem_filter heq

theorem analysable_optimizeFrom (first : Nat) {cs : List Cluster}
    (hcs : ∀ c ∈ cs, c.Analysable direction) :
    ∀ c ∈ (optimizeFrom first cs).value, c.Analysable direction := by
  induction cs generalizing first with
  | nil => exact hcs
  | cons c cs ih =>
    rw [List.forall_mem_cons] at hcs
    rw [optimizeFrom, Checked.value_bind]
    exact List.forall_mem_cons.2
      ⟨⟨allReferences_optimizeEquations first hcs.1.complete, hcs.1.direction_eq⟩, ih _ hcs.2⟩

theorem analysable_optimize (mode : Optimization) {cs : List Cluster}
    (hcs : ∀ c ∈ cs, c.Analysable direction) :
    ∀ c ∈ (mode.optimize cs).value, c.Analysable direction := by
  cases mode with
  | none => exact hcs
  | basic => exact analysable_optimizeFrom 0 hcs

end Optimization

/-- Halos cannot be exchanged, for a reason other than a failed analysis. -/
def HaloError.IsImpossible (e : HaloError) : Prop :=
  (∃ f, e = .missingGrid f) ∨ (∃ d, e = .sequential d) ∨ (∃ f d ls, e = .inconsistent f d ls) ∨
    ∃ d n o, e = .missingSlot d n o

namespace Halo

variable {e : HaloError}

theorem isImpossible_of_check {s : Scope} (h : check s = .error e) : e.IsImpossible := by
  unfold check at h
  generalize s.dependences = ds at h
  induction ds with
  | nil => cases h
  | cons d ds ih =>
    rw [List.forM, Analysis.bind_eq_error] at h
    rcases h with h | ⟨-, -, h⟩
    · unfold checkDependence at h
      split at h
      · split at h
        · exact .inl ⟨_, (Except.error.inj h).symm⟩
        · split at h
          · cases h
          · split at h
            · exact .inr (.inl ⟨_, (Except.error.inj h).symm⟩)
            · cases h
      · cases h
    · exact ih h

theorem isImpossible_of_classify {s : Scope} (h : (classify s).run.value = .error e) :
    e.IsImpossible := by
  unfold classify at h
  rw [Analysis.value_bind_eq_error] at h
  rcases h with h | ⟨found, -, h⟩
  · cases h
  rw [Analysis.value_bind_eq_error] at h
  rcases h with h | ⟨labelled, -, h⟩
  · rw [Analysis.value_mapM] at h
    obtain ⟨f, -, h⟩ := Analysis.exists_error_of_mapM h
    rw [Analysis.value_bind_eq_error] at h
    rcases h with h | ⟨m, -, h⟩
    · have hall : agreeAll f.1 f.2 = .error e := h
      unfold agreeAll at hall
      rw [Analysis.bind_eq_error] at hall
      rcases hall with hall | ⟨os, -, hall⟩
      · obtain ⟨d, -, hd⟩ := Analysis.exists_error_of_mapM hall
        rw [Analysis.bind_eq_error] at hd
        rcases hd with hd | ⟨l, -, hd⟩
        · unfold agree at hd
          split at hd
          · cases hd
          · exact .inr (.inr (.inl ⟨_, _, _, (Except.error.inj hd).symm⟩))
        · cases hd
      · cases hall
    · cases h
  · cases h

theorem isImpossible_of_localIndex {space : IterationSpace} {f : GridFunction} {d : Dimension}
    {last : Int} (h : (localIndex space f d last).run.value = .error e) : e.IsImpossible := by
  unfold localIndex at h
  split at h
  · rw [Analysis.value_bind_of_ok (Analysis.value_lift _)] at h
    dsimp only at h
    rw [Analysis.value_bind_of_ok (Analysis.value_lift _)] at h
    split at h
    · cases h
    · rw [Analysis.value_bind_of_ok (Analysis.value_lift _)] at h
      exact .inr (.inr (.inr ⟨_, _, _, (Except.error.inj h).symm⟩))
  · cases h

end Halo

namespace HaloScheme

theorem isImpossible_of_exchange? {space : IterationSpace} {data : DataSpace} {scope : Scope}
    {f : GridFunction} {labels : OrdMap Dimension HaloLabel} {e : HaloError}
    (h : (exchange? space data scope f labels).run.value = .error e) : e.IsImpossible := by
  unfold exchange? at h
  rw [Analysis.value_bind_of_ok (Analysis.value_lift _),
    Analysis.value_bind_of_ok (Analysis.value_lift _)] at h
  split at h
  · cases h
  · rw [Analysis.value_bind_eq_error] at h
    rcases h with h | ⟨indices, -, h⟩
    · unfold Halo.localIndices at h
      obtain ⟨m, d, -, h⟩ := Analysis.exists_error_of_value_foldlM h
      split at h
      · cases h
      · rw [Analysis.value_bind_of_ok (Analysis.value_lift _),
          Analysis.value_bind_eq_error] at h
        rcases h with h | ⟨index, -, h⟩
        · exact Halo.isImpossible_of_localIndex h
        · cases h
    · cases h

theorem isImpossible_of_ofCluster {direction : Dimension → Direction} {c : Cluster}
    (hc : c.Analysable direction) {e : HaloError} (h : (ofCluster c).run.value = .error e) :
    e.IsImpossible := by
  unfold ofCluster ofEquations at h
  obtain ⟨scope, hscope⟩ := hc.exists_scope
  rw [Analysis.value_bind_of_ok (Analysis.value_adapt_eq_ok.2 hscope),
    Analysis.value_bind_eq_error] at h
  rcases h with h | ⟨_, -, h⟩
  · exact Halo.isImpossible_of_check h
  rw [Analysis.value_bind_eq_error] at h
  rcases h with h | ⟨⟨classification, diagnostics⟩, -, h⟩
  · exact Halo.isImpossible_of_classify h
  dsimp only at h
  rw [Analysis.value_bind_eq_error] at h
  rcases h with h | ⟨entries, -, h⟩
  · rw [Analysis.value_mapM] at h
    obtain ⟨f, -, h⟩ := Analysis.exists_error_of_mapM h
    rw [Analysis.value_bind_eq_error] at h
    rcases h with h | ⟨entry, -, h⟩
    · exact isImpossible_of_exchange? h
    · cases h
  · cases h

end HaloScheme

namespace Schedule

theorem exists_analysable_lowerAll {eqs : List Equation}
    (h : ∀ eq ∈ eqs, eq.AllReferences Reference.Complete)
    (directions : OrdMap Dimension Direction) :
    ∃ direction, ∀ e ∈ (Equation.lowerAll eqs directions).value,
      (Cluster.ofLowered e).Analysable direction := by
  refine ⟨(IterationSpace.ofDirections
    (.ofList (directions.entries.map fun e => (e.1.root, e.2)))).direction, ?_⟩
  intro e he
  rw [Equation.value_lowerAll] at he
  obtain ⟨eq, heq, rfl⟩ := List.mem_map.1 he
  constructor
  · intro eq' heq'
    rw [List.mem_singleton.1 heq']
    exact h eq heq
  · exact Equation.direction_iterationSpace _ directions eq

theorem exists_scope_ofLowered {direction : Dimension → Direction} {es : List LoweredEquation}
    (hes : ∀ e ∈ es, (Cluster.ofLowered e).Analysable direction) :
    ∃ s, (Scope.ofLowered es).run.value = .ok s := by
  apply Scope.exists_ofEquations
  · intro e he r hr
    obtain ⟨lowered, hlowered, rfl⟩ := List.mem_map.1 he
    exact (hes lowered hlowered).complete_references (List.mem_singleton_self _) hr
  · intro e he
    obtain ⟨lowered, hlowered, rfl⟩ := List.mem_map.1 he
    exact (hes lowered hlowered).direction_eq

/--
A schedule can always be derived from a problem that has been loaded, except that halo exchanges may
be impossible. Accesses never fail to go together, and neither do clusters that are fused.
-/
theorem ofEquations_of_resolve (file : ProblemFile) (p : Problem)
    (h : file.resolve.run.value = .ok p) (config : Configuration) :
    ((∃ s, (ofEquations config p.equations p.directions).run.value = .ok s) ∨
      config.distributed = true ∧
        ∃ e, (ofEquations config p.equations p.directions).run.value = .error (.halo e) ∧
          ((∃ f, e = .missingGrid f) ∨ (∃ d, e = .sequential d) ∨
            (∃ f d ls, e = .inconsistent f d ls) ∨ ∃ d n o, e = .missingSlot d n o)) ∧
    ∀ earlier c : Cluster, (earlier.judge c).run.value = .ok .fuse →
      earlier.squash c = .ok (earlier.absorb c) := by
  refine ⟨?_, fun earlier c => Cluster.squash_of_fuse⟩
  obtain ⟨direction, hlowered⟩ :=
    exists_analysable_lowerAll (ProblemFile.complete_resolve h) p.directions
  obtain ⟨scope, hscope⟩ := exists_scope_ofLowered hlowered
  obtain ⟨clusters, hclusters, hall⟩ := Cluster.exists_ofProgram config.fusion hlowered
  have hoptimized := Optimization.analysable_optimize config.optimization hall
  unfold ofEquations
  rw [Analysis.value_bind_of_ok (Analysis.value_lift _),
    Analysis.value_bind_of_ok (Analysis.value_adapt_eq_ok.2 hscope),
    Analysis.value_bind_of_ok (Analysis.value_adapt_eq_ok.2 hclusters),
    Analysis.value_bind_of_ok (Analysis.value_lift _)]
  cases hdistributed : config.distributed with
  | false => exact .inl ⟨_, rfl⟩
  | true =>
    rw [if_pos rfl, Analysis.value_bind, Analysis.value_adapt]
    cases hschemes : (List.mapM HaloScheme.ofCluster
        (config.optimization.optimize clusters).value).run.value with
    | ok schemes => exact .inl ⟨_, rfl⟩
    | error e =>
      refine .inr ⟨rfl, e, rfl, ?_⟩
      rw [Analysis.value_mapM] at hschemes
      obtain ⟨c, hc, he⟩ := Analysis.exists_error_of_mapM hschemes
      exact HaloScheme.isImpossible_of_ofCluster (hoptimized c hc) he

section Average

def lineEntry (name : String) : FunctionEntry where
  name := name
  kind := .dense
  dimensions := ["x"]
  shape := [.int 8]
  halo := none
  padding := none
  timeSize := none
  elementType := .float32
  onStack := false
  onGrid := none

/-- `u[x] = v[x - 1] + v[x + 1]`. -/
def averageFile : ProblemFile where
  name := none
  dimensions := [⟨"x", .space, none, none⟩]
  grid := none
  functions := [lineEntry "u", lineEntry "v"]
  directions := .ofList [("x", .backward)]
  equations := [⟨.access "u" [.name "x"],
    .add [.access "v" [.add [.name "x", .int (-1)]], .access "v" [.add [.name "x", .int 1]]],
    false⟩]

theorem ofEquations_of_resolve_average :
    ∃ p, averageFile.resolve.run.value = .ok p ∧ p.equations.length = 1 ∧
      ∀ config : Configuration, config.distributed = false →
        ∃ s, (ofEquations config p.equations p.directions).run.value = .ok s := by
  have hresult : averageFile.resolve.run.value.toOption.map (fun p => p.equations.length) =
      some 1 := by
    decide +kernel
  cases hp : averageFile.resolve.run.value with
  | error e =>
    rw [hp] at hresult
    cases hresult
  | ok p =>
    rw [hp] at hresult
    refine ⟨p, rfl, Option.some.inj hresult, ?_⟩
    intro config hconfig
    rcases (ofEquations_of_resolve averageFile p hp config).1 with hs | ⟨hdistributed, -⟩
    · exact hs
    · rw [hconfig] at hdistributed
      cases hdistributed

end Average

end Schedule

end Stencil
