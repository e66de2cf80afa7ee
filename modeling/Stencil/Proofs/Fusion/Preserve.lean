import Stencil.Proofs.Fusion.Arrange

/-!
This module contains the effect of fusion on the execution of a program. Fused clusters execute the
instances of the program, and the only conflicts that they turn around are those where an equation
overtakes an earlier one of the same cluster.
-/

namespace Stencil

theorem Equation.Independent.not_conflicts {e e' : Equation} (h : e.Independent e') (p q : Point) :
    ¬ Instance.Conflicts (e, p) (e', q) := by
  rintro ⟨r, hr, r', hr', hwrite, hcell⟩
  exact h r hr r' hr' hwrite (Prod.mk.inj hcell).1

/--
At the point `p`, the equation `e'` uses an array element that `e` is going to use at `q`. It writes
the element, or it reads the element and `e` writes it at `p` and again at `q`.
-/
def Equation.Overtakes (e' e : Equation) (p q : Point) : Prop :=
  ∃ r' ∈ e'.references, ∃ r ∈ e.references, r'.cell p = r.cell q ∧
    (e'.write? = some r' ∨ e.write? = some r ∧ r'.cell p = r.cell p)

instance (e' e : Equation) (p q : Point) : Decidable (e'.Overtakes e p q) := by
  unfold Equation.Overtakes
  infer_instance

namespace Cluster

def KeepsOrder (box : Dimension → Bounds) (c : Cluster) : Prop :=
  c.equations.Pairwise fun e e' =>
    (c.iterationSpace.points box).Pairwise fun p q => ¬ e'.Overtakes e p q

instance (box : Dimension → Bounds) (c : Cluster) : Decidable (c.KeepsOrder box) := by
  unfold KeepsOrder
  infer_instance

theorem keepsOrder_iff {box : Dimension → Bounds} {c : Cluster} :
    c.KeepsOrder box ↔ ∀ e e', [e, e'].Sublist c.equations →
      ∀ p q, [p, q].Sublist (c.iterationSpace.points box) → ¬ e'.Overtakes e p q := by
  unfold KeepsOrder
  simp only [List.pairwise_iff_forall_sublist]

variable {box : Dimension → Bounds} {eqs : List Equation} {clusters : List Cluster}
variable {single : Equation → Cluster} {e e' : Equation} {p q : Point}

theorem pair_sublist_schedule_map (hsingle : ∀ a, (single a).equations = [a]) :
    [(e, p), (e', q)].Sublist (schedule box (eqs.map single)) ↔
      e = e' ∧ e ∈ eqs ∧ [p, q].Sublist ((single e).iterationSpace.points box) ∨
        [e, e'].Sublist eqs ∧ p ∈ (single e).iterationSpace.points box ∧
          q ∈ (single e').iterationSpace.points box := by
  unfold schedule
  rw [List.flatMap_map, pair_sublist_flatMap]
  constructor
  · rintro (⟨a, ha, h⟩ | ⟨a, b, hab, hfirst, hsecond⟩)
    · rw [pair_sublist_instances, hsingle, List.mem_singleton, List.mem_singleton] at h
      rcases h with ⟨h, -⟩ | ⟨rfl, rfl, h⟩
      · cases Nat.not_succ_le_self _ h.length_le
      · exact .inl ⟨rfl, ha, h⟩
    · rw [mem_instances, hsingle, List.mem_singleton] at hfirst hsecond
      obtain ⟨rfl, hp⟩ := hfirst
      obtain ⟨rfl, hq⟩ := hsecond
      exact .inr ⟨hab, hp, hq⟩
  · rintro (⟨rfl, he, h⟩ | ⟨h, hp, hq⟩)
    · refine .inl ⟨e, he, pair_sublist_instances.2 (.inr ?_)⟩
      rw [hsingle, List.mem_singleton]
      exact ⟨rfl, rfl, h⟩
    · refine .inr ⟨e, e', h, mem_instances.2 ⟨?_, hp⟩, mem_instances.2 ⟨?_, hq⟩⟩
      · rw [hsingle, List.mem_singleton]
      · rw [hsingle, List.mem_singleton]

namespace Arranged

variable {space : Equation → IterationSpace}

theorem mem_schedule (h : Arranged space eqs clusters.reverse) :
    (e, p) ∈ schedule box clusters ↔ e ∈ eqs ∧ p ∈ (space e).points box := by
  unfold schedule
  rw [List.mem_flatMap, h.mem_iff]
  constructor
  · rintro ⟨c, hc, hmem⟩
    obtain ⟨he, hp⟩ := mem_instances.1 hmem
    rw [← List.mem_reverse] at hc
    rw [h.iterationSpace c hc e he] at hp
    exact ⟨⟨c, hc, he⟩, hp⟩
  · rintro ⟨⟨c, hc, he⟩, hp⟩
    rw [← h.iterationSpace c hc e he] at hp
    exact ⟨c, List.mem_reverse.1 hc, mem_instances.2 ⟨he, hp⟩⟩

theorem of_pair_sublist_schedule (h : Arranged space eqs clusters.reverse)
    (hpair : [(e, p), (e', q)].Sublist (schedule box clusters)) :
    [e, e'].Sublist eqs ∨ e.Independent e' ∨
      ∃ c ∈ clusters, e ∈ c.equations ∧ e' ∈ c.equations ∧
        [p, q].Sublist (c.iterationSpace.points box) := by
  rcases pair_sublist_flatMap.1 hpair with ⟨c, hc, hpair⟩ | ⟨c, d, hcd, hfirst, hsecond⟩
  · rcases pair_sublist_instances.1 hpair with ⟨hequations, -⟩ | hpoints
    · exact .inl (hequations.trans (h.inOrder c (List.mem_reverse.2 hc)))
    · exact .inr (.inr ⟨c, hc, hpoints⟩)
  · have hacross := List.pairwise_iff_forall_sublist.1 (List.pairwise_reverse.1 h.across) hcd
    rcases hacross e' (mem_instances.1 hsecond).1 e (mem_instances.1 hfirst).1 with horder | hfree
    · exact .inl horder
    · exact .inr (.inl hfree)

theorem nodup_schedule (h : Arranged space eqs clusters.reverse) (hnodup : eqs.Nodup)
    (hall : ∀ a ∈ eqs, a.UniformAssignment) (hspace : ∀ a, (space a).dimensions.Nodup) :
    (schedule box clusters).Nodup := by
  rw [List.nodup_iff_sublist]
  rintro ⟨e, p⟩ hpair
  rcases h.of_pair_sublist_schedule hpair with horder | hfree | ⟨c, hc, he, -, hpoints⟩
  · exact List.nodup_iff_sublist.1 hnodup e horder
  · have he : e ∈ eqs := (h.mem_schedule.1 (hpair.subset (List.mem_cons_self ..))).1
    obtain ⟨w, hw⟩ := Option.isSome_iff_exists.1 (hall e he).isTensor
    have hmem : w ∈ e.references := List.mem_append_left _ (by simp [hw])
    exact hfree w hmem w hmem (.inl hw) rfl
  · rw [h.iterationSpace c (List.mem_reverse.2 hc) e he] at hpoints
    exact List.nodup_iff_sublist.1 (IterationSpace.nodup_points (hspace e) box) p hpoints

theorem perm_schedule {clusters' : List Cluster} (h : Arranged space eqs clusters.reverse)
    (h' : Arranged space eqs clusters'.reverse) (hnodup : eqs.Nodup)
    (hall : ∀ a ∈ eqs, a.UniformAssignment) (hspace : ∀ a, (space a).dimensions.Nodup) :
    (schedule box clusters).Perm (schedule box clusters') := by
  rw [List.perm_ext_iff_of_nodup (h.nodup_schedule hnodup hall hspace)
    (h'.nodup_schedule hnodup hall hspace)]
  rintro ⟨e, p⟩
  rw [h.mem_schedule, h'.mem_schedule]

theorem overtakes_of_conflicts {c : Cluster} (h : Arranged space eqs clusters.reverse)
    (hc : c ∈ clusters) (hspace : ∀ a, (space a).dimensions.Nodup)
    (hequations : [e, e'].Sublist c.equations)
    (hpoints : [p, q].Sublist (c.iterationSpace.points box))
    (hconflict : Instance.Conflicts (e, q) (e', p)) : e'.Overtakes e p q := by
  obtain ⟨r, hr, r', hr', hwrite, hcell⟩ := hconflict
  have hc' := List.mem_reverse.2 hc
  have he : e ∈ c.equations := hequations.subset (List.mem_cons_self ..)
  have hdimensions : c.iterationSpace.dimensions.Nodup := by
    rw [h.iterationSpace c hc' e he]
    exact hspace e
  have hlt := List.pairwise_iff_forall_sublist.1
    (IterationSpace.pairwise_points hdimensions box) hpoints
  have hseparated := List.pairwise_iff_forall_sublist.1 (h.separated c hc') hequations
  refine ⟨r', hr', r, hr, hcell.symm, ?_⟩
  rcases hwrite with hw | hw'
  · rcases List.mem_append.1 hr' with hw' | hread
    · exact .inl (Option.mem_toList.1 hw')
    · exact .inr ⟨hw, hseparated r hw r' hread p q hlt hcell.symm⟩
  · exact .inl hw'

end Arranged

theorem not_turnAround_iff (h : Arranged (fun a => (single a).iterationSpace) eqs clusters.reverse)
    (hsingle : ∀ a, (single a).equations = [a]) (hnodup : eqs.Nodup)
    (hspace : ∀ a, (single a).iterationSpace.dimensions.Nodup) (box : Dimension → Bounds) :
    ¬ TurnAround box (eqs.map single) clusters ↔ ∀ c ∈ clusters, c.KeepsOrder box := by
  constructor
  · intro hnot c hc
    rw [keepsOrder_iff]
    rintro e e' hequations p q hpoints ⟨r', hr', r, hr, hcell, hwrite⟩
    have hc' := List.mem_reverse.2 hc
    have he : e ∈ c.equations := hequations.subset (by simp)
    have he' : e' ∈ c.equations := hequations.subset (by simp)
    -- The program executes all of `e` first, but the cluster reaches `p` first.
    refine hnot ⟨(e, q), (e', p), ⟨r, hr, r', hr', ?_, hcell.symm⟩, ?_, ?_⟩
    · exact hwrite.symm.imp_left And.left
    · rw [pair_sublist_schedule_map hsingle, ← h.iterationSpace c hc' e he,
        ← h.iterationSpace c hc' e' he']
      exact .inr ⟨hequations.trans (h.inOrder c hc'), hpoints.subset (by simp),
        hpoints.subset (by simp)⟩
    · exact pair_sublist_flatMap.2
        (.inl ⟨c, hc, pair_sublist_instances.2 (.inr ⟨he', he, hpoints⟩)⟩)
  · rintro hkeeps ⟨⟨e, q⟩, ⟨e', p⟩, hconflict, hprogram, hfused⟩
    rcases (pair_sublist_schedule_map hsingle).1 hprogram with ⟨rfl, he, hpoints⟩ | ⟨horder, -⟩
    · -- The instances of a single equation stay in the order of its own loops.
      rcases h.of_pair_sublist_schedule hfused with horder | hfree | ⟨c, hc, he, -, hswap⟩
      · exact List.nodup_iff_sublist.1 hnodup e horder
      · exact hfree.not_conflicts q p hconflict
      · rw [h.iterationSpace c (List.mem_reverse.2 hc) e he] at hswap
        exact not_pair_sublist_swap (IterationSpace.nodup_points (hspace e) box) hpoints hswap
    · rcases h.of_pair_sublist_schedule hfused with hswap | hfree | ⟨c, hc, he', he, hpoints⟩
      · exact not_pair_sublist_swap hnodup horder hswap
      · exact hfree.symm.not_conflicts q p hconflict
      · have hequations := pair_sublist_of_sublist hnodup
          (h.inOrder c (List.mem_reverse.2 hc)) horder he he'
        exact keepsOrder_iff.1 (hkeeps c hc) e e' hequations p q hpoints
          (h.overtakes_of_conflicts hc hspace hequations hpoints hconflict)

def ofEquation (slots : OrdMap Dimension (List Slot)) (directions : OrdMap Dimension Direction)
    (e : Equation) : Cluster :=
  ofLowered (e.lower slots directions).value

theorem map_ofLowered_lowerAll (eqs : List Equation) (directions : OrdMap Dimension Direction) :
    (Equation.lowerAll eqs directions).value.map ofLowered =
      eqs.map (ofEquation (Slot.collect eqs).value directions) := by
  rw [Equation.value_lowerAll, List.map_map]
  rfl

theorem arranged_fuseAll (hall : ∀ a ∈ eqs, a.UniformAssignment) (hnodup : eqs.Nodup)
    (hsingle : ∀ a, (single a).equations = [a])
    (hloops : ∀ a, (single a).iterationSpace.dimensions = a.loops)
    (hfuse : (fuseAll (eqs.map single)).run.value = .ok clusters) :
    Arranged (fun a => (single a).iterationSpace) eqs clusters.reverse := by
  unfold fuseAll at hfuse
  rw [Analysis.value_bind_eq_ok] at hfuse
  obtain ⟨cs, hfold, heq⟩ := hfuse
  obtain rfl := Except.ok.inj heq
  rw [List.reverse_reverse]
  exact Arranged.nil.foldlM hsingle (fun _ => rfl) hnodup hall hloops hfold

theorem arranged_map (hsingle : ∀ a, (single a).equations = [a]) :
    Arranged (fun a => (single a).iterationSpace) eqs (eqs.map single).reverse := by
  rw [← List.append_nil (eqs.map single).reverse]
  exact Arranged.nil.append_map hsingle fun _ => rfl

/--
Fused clusters resolve all conflicts of a program of uniform assignments in program order exactly if
they keep the order of their equations. Then they have the effect of the program.
-/
theorem run_fused_of_keepsOrder {eqs : List Equation} {directions : OrdMap Dimension Direction}
    {clusters : List Cluster} (hnodup : eqs.Nodup) (hall : ∀ e ∈ eqs, e.UniformAssignment)
    (hfuse : (ofProgram true (Equation.lowerAll eqs directions).value).run.value = .ok clusters)
    (box : Dimension → Bounds) :
    (¬ TurnAround box ((Equation.lowerAll eqs directions).value.map ofLowered) clusters ↔
      ∀ c ∈ clusters, c.KeepsOrder box) ∧
    ((∀ c ∈ clusters, c.KeepsOrder box) →
      ∀ (K : Type) [Field K] [DecidableEq K] (env : Environment K) (σ : Store K),
        run env box clusters σ =
          run env box ((Equation.lowerAll eqs directions).value.map ofLowered) σ) := by
  unfold ofProgram at hfuse
  rw [if_pos rfl, map_ofLowered_lowerAll] at hfuse
  rw [map_ofLowered_lowerAll]
  generalize (Slot.collect eqs).value = slots at hfuse ⊢
  have hsingle (e : Equation) : (ofEquation slots directions e).equations = [e] := rfl
  have hspace (e : Equation) : (ofEquation slots directions e).iterationSpace.dimensions.Nodup :=
    e.nodup_dimensions_iterationSpace slots directions
  have hloops (e : Equation) :
      (ofEquation slots directions e).iterationSpace.dimensions = e.loops :=
    e.dimensions_iterationSpace slots directions
  have hfused := arranged_fuseAll hall hnodup hsingle hloops hfuse
  have hiff := not_turnAround_iff hfused hsingle hnodup hspace box
  refine ⟨hiff, ?_⟩
  intro hkeeps K _ _ env σ
  have hperm : (schedule box (eqs.map (ofEquation slots directions))).Perm
      (schedule box clusters) :=
    (arranged_map hsingle).perm_schedule hfused hnodup hall hspace
  exact (run_eq_of_not_turnAround env hperm (hiff.2 hkeeps) σ).symm

section Hoisted

/-- `u[x] = v[x + 1]; w[x, y] = 2; t[x] = u[x - 1]`. -/
def hoisted : List Equation :=
  [⟨.access (.line "u") [.sym "x"], .access (.line "v") [.add [.num 1, .sym "x"]], false⟩,
    ⟨.access (.declare "w" .dense [.space "x", .space "y"] [.num 8, .num 8]) [.sym "x", .sym "y"],
      .num 2, false⟩,
    ⟨.access (.line "t") [.sym "x"], .access (.line "u") [.add [.num (-1), .sym "x"]], false⟩]

/-- The last equation joins the first one, and the box that is met has four points. -/
theorem run_fused_of_keepsOrder_hoisted :
    hoisted.Nodup ∧ (∀ e ∈ hoisted, e.UniformAssignment) ∧
      ∃ clusters,
        (ofProgram true (Equation.lowerAll hoisted .empty).value).run.value = .ok clusters ∧
        clusters.map (·.equations.length) = [2, 1] ∧
        ∀ (env : Environment Rat) (σ : Store Rat),
          run env (fun _ => ⟨0, 1⟩) clusters σ =
            run env (fun _ => ⟨0, 1⟩)
              ((Equation.lowerAll hoisted .empty).value.map ofLowered) σ := by
  have hnodup : hoisted.Nodup := by decide +kernel
  have hall : ∀ e ∈ hoisted, e.UniformAssignment := by decide +kernel
  have hresult : (ofProgram true (Equation.lowerAll hoisted .empty).value).run.value.map
      (fun cs => (cs.map (·.equations.length),
        decide (∀ c ∈ cs, c.KeepsOrder fun _ => ⟨0, 1⟩))) = .ok ([2, 1], true) := by
    decide +kernel
  cases hfuse : (ofProgram true (Equation.lowerAll hoisted .empty).value).run.value with
  | error e =>
    rw [hfuse] at hresult
    cases hresult
  | ok clusters =>
    rw [hfuse] at hresult
    obtain ⟨hlengths, hkeeps⟩ := Prod.mk.inj (Except.ok.inj hresult)
    refine ⟨hnodup, hall, clusters, rfl, hlengths, ?_⟩
    exact (run_fused_of_keepsOrder hnodup hall hfuse _).2 (of_decide_eq_true hkeeps) Rat

end Hoisted

section Overwritten

/-- `b[x] = a[x - 1]; a[x] = 0`. -/
def overwritten : List Equation :=
  [⟨.access (.line "b") [.sym "x"], .access (.line "a") [.add [.num (-1), .sym "x"]], false⟩,
    ⟨.access (.line "a") [.sym "x"], .num 0, false⟩]

/-- The second equation joins the first one, which then reads what has just been written. -/
theorem run_fused_ne_overwritten :
    overwritten.Nodup ∧ (∀ e ∈ overwritten, e.UniformAssignment) ∧
      ∃ clusters,
        (ofProgram true (Equation.lowerAll overwritten .empty).value).run.value = .ok clusters ∧
        run (⟨0, 0, 0⟩ : Environment Rat) (fun _ => ⟨0, 1⟩) clusters 1 ≠
          run ⟨0, 0, 0⟩ (fun _ => ⟨0, 1⟩)
            ((Equation.lowerAll overwritten .empty).value.map ofLowered) 1 := by
  have hfused : (ofProgram true (Equation.lowerAll overwritten .empty).value).run.value.map
      (fun cs => run (⟨0, 0, 0⟩ : Environment Rat) (fun _ => ⟨0, 1⟩) cs 1 (.line "b", [1])) =
        .ok 0 := by
    decide +kernel
  have hprogram : run (⟨0, 0, 0⟩ : Environment Rat) (fun _ => ⟨0, 1⟩)
      ((Equation.lowerAll overwritten .empty).value.map ofLowered) 1 (.line "b", [1]) = 1 := by
    decide +kernel
  cases hfuse : (ofProgram true (Equation.lowerAll overwritten .empty).value).run.value with
  | error e =>
    rw [hfuse] at hfused
    cases hfused
  | ok clusters =>
    rw [hfuse] at hfused
    refine ⟨by decide +kernel, by decide +kernel, clusters, rfl, ?_⟩
    intro heq
    have hvalue := Except.ok.inj hfused
    dsimp only at hvalue
    rw [heq, hprogram] at hvalue
    exact one_ne_zero hvalue

end Overwritten

end Cluster

end Stencil
