import Stencil.Proofs.Fusion.Judge

/-!
This module contains the invariant of fusion: how the clusters that have been built so far arrange
the equations that have been processed.
-/

namespace Stencil

namespace Cluster

theorem place_eq_joined {c : Cluster} {cs cs' : List Cluster}
    (h : (place c cs).run.value = .ok (.joined cs')) :
    ∃ later earlier rest, cs = later ++ earlier :: rest ∧
      cs' = later ++ earlier.absorb c :: rest ∧
      (∀ d ∈ later, (d.judge c).run.value = .ok .pass) ∧
      (earlier.judge c).run.value = .ok .fuse := by
  induction cs generalizing cs' with
  | nil =>
    rw [place] at h
    cases h
  | cons d cs ih =>
    rw [place, Analysis.value_bind_eq_ok] at h
    obtain ⟨v, hv, h⟩ := h
    cases v with
    | fuse =>
      obtain rfl := Placement.joined.inj (Except.ok.inj h)
      exact ⟨[], d, cs, rfl, rfl, by simp, hv⟩
    | stay atomics => cases h
    | pass =>
      dsimp only at h
      rw [Analysis.value_bind_eq_ok] at h
      obtain ⟨placement, hplace, h⟩ := h
      cases placement with
      | joined cs'' =>
        obtain rfl := Placement.joined.inj (Except.ok.inj h)
        obtain ⟨later, earlier, rest, rfl, rfl, hpass, hfuse⟩ := ih hplace
        refine ⟨d :: later, earlier, rest, rfl, rfl, ?_, hfuse⟩
        exact List.forall_mem_cons.2 ⟨hv, hpass⟩
      | alone atomics => cases h

theorem addLatest_eq_ok {c : Cluster} {cs cs' : List Cluster}
    (h : (addLatest cs c).run.value = .ok cs') :
    (∃ atomics, cs' = { c with atomics := atomics } :: cs) ∨
      ∃ later earlier rest, cs = later ++ earlier :: rest ∧
        cs' = later ++ earlier.absorb c :: rest ∧
        (∀ d ∈ later, (d.judge c).run.value = .ok .pass) ∧
        (earlier.judge c).run.value = .ok .fuse := by
  unfold addLatest at h
  split at h
  · rw [Analysis.value_bind_eq_ok] at h
    obtain ⟨placement, hplace, h⟩ := h
    cases placement with
    | joined cs'' =>
      obtain rfl := Except.ok.inj h
      exact .inr (place_eq_joined hplace)
    | alone atomics => exact .inl ⟨_, (Except.ok.inj h).symm⟩
  · exact .inl ⟨c.atomics, (Except.ok.inj h).symm⟩

/-- The equations of two clusters are in program order, or have nothing to do with each other. -/
def Follows (done : List Equation) (later earlier : Cluster) : Prop :=
  ∀ e' ∈ later.equations, ∀ e ∈ earlier.equations, [e, e'].Sublist done ∨ e.Independent e'

theorem Follows.concat {done : List Equation} {later earlier : Cluster}
    (h : Follows done later earlier) (e : Equation) : Follows (done ++ [e]) later earlier := by
  intro b hb a ha
  apply (h b hb a ha).imp_left
  intro hsublist
  exact hsublist.trans (List.sublist_append_left done [e])

/--
Clusters, of which the latest one comes first, arrange the equations of a list. Inside of a cluster
equations are in program order and no read is overtaken by a write that it depends on.
-/
structure Arranged (space : Equation → IterationSpace) (done : List Equation)
    (cs : List Cluster) : Prop where
  mem_iff : ∀ e, e ∈ done ↔ ∃ c ∈ cs, e ∈ c.equations
  iterationSpace : ∀ c ∈ cs, ∀ e ∈ c.equations, c.iterationSpace = space e
  inOrder : ∀ c ∈ cs, c.equations.Sublist done
  separated : ∀ c ∈ cs, c.equations.Pairwise (Equation.Separated c.iterationSpace)
  across : cs.Pairwise (Follows done)

namespace Arranged

variable {space : Equation → IterationSpace} {done : List Equation} {cs : List Cluster}
variable {e : Equation} {c : Cluster}

theorem nil : Arranged space [] [] where
  mem_iff := by simp
  iterationSpace := by simp
  inOrder := by simp
  separated := by simp
  across := .nil

theorem sublist_concat {a : Equation} (ha : a ∈ done) : [a, e].Sublist (done ++ [e]) :=
  (List.singleton_sublist.2 ha).append (List.Sublist.refl [e])

theorem cons (h : Arranged space done cs) (hequations : c.equations = [e])
    (hspace : c.iterationSpace = space e) : Arranged space (done ++ [e]) (c :: cs) where
  mem_iff a := by
    rw [List.mem_append, h.mem_iff]
    simp only [List.mem_cons, exists_eq_or_imp, hequations, List.not_mem_nil, or_false]
    exact or_comm
  iterationSpace := by
    rw [List.forall_mem_cons, hequations]
    exact ⟨by simpa using hspace, h.iterationSpace⟩
  inOrder := by
    rw [List.forall_mem_cons, hequations]
    exact ⟨List.sublist_append_right done [e],
      fun d hd => (h.inOrder d hd).trans (List.sublist_append_left done [e])⟩
  separated := by
    rw [List.forall_mem_cons, hequations]
    exact ⟨List.pairwise_singleton _ _, h.separated⟩
  across := by
    rw [List.pairwise_cons]
    constructor
    · intro d hd e' he' a ha
      rw [hequations, List.mem_singleton] at he'
      rw [he']
      exact .inl (sublist_concat ((h.mem_iff a).2 ⟨d, hd, ha⟩))
    · exact h.across.imp fun hfollows => hfollows.concat e

section Join

variable {later rest : List Cluster} {earlier joined : Cluster}

theorem exists_mem_join (hequations : joined.equations = earlier.equations ++ [e]) (a : Equation) :
    (∃ d ∈ later ++ joined :: rest, a ∈ d.equations) ↔
      (∃ d ∈ later ++ earlier :: rest, a ∈ d.equations) ∨ a = e := by
  constructor
  · rintro ⟨d, hd, ha⟩
    rw [List.mem_append, List.mem_cons] at hd
    rcases hd with hd | rfl | hd
    · exact .inl ⟨d, List.mem_append_left _ hd, ha⟩
    · rw [hequations, List.mem_append, List.mem_singleton] at ha
      exact ha.imp_left fun ha => ⟨earlier, by simp, ha⟩
    · exact .inl ⟨d, List.mem_append_right _ (List.mem_cons_of_mem _ hd), ha⟩
  · rintro (⟨d, hd, ha⟩ | rfl)
    · rw [List.mem_append, List.mem_cons] at hd
      rcases hd with hd | rfl | hd
      · exact ⟨d, List.mem_append_left _ hd, ha⟩
      · exact ⟨joined, by simp, by simp [hequations, ha]⟩
      · exact ⟨d, List.mem_append_right _ (List.mem_cons_of_mem _ hd), ha⟩
    · exact ⟨joined, by simp, by simp [hequations]⟩

theorem follows_join {d : Cluster} (hfollows : Follows done d earlier)
    (hequations : joined.equations = earlier.equations ++ [e])
    (hfree : ∀ a ∈ d.equations, a.Independent e) : Follows (done ++ [e]) d joined := by
  intro e' he' a ha
  rw [hequations, List.mem_append, List.mem_singleton] at ha
  rcases ha with ha | rfl
  · exact hfollows.concat e e' he' a ha
  · exact .inr (hfree e' he').symm

theorem join_follows {d : Cluster} (hfollows : Follows done earlier d)
    (hequations : joined.equations = earlier.equations ++ [e])
    (hdone : ∀ a ∈ d.equations, a ∈ done) : Follows (done ++ [e]) joined d := by
  intro e' he' a ha
  rw [hequations, List.mem_append, List.mem_singleton] at he'
  rcases he' with he' | rfl
  · exact hfollows.concat e e' he' a ha
  · exact .inl (sublist_concat (hdone a ha))

theorem join (h : Arranged space done (later ++ earlier :: rest))
    (hequations : joined.equations = earlier.equations ++ [e])
    (hkept : joined.iterationSpace = earlier.iterationSpace)
    (hspace : earlier.iterationSpace = space e)
    (hseparated : ∀ a ∈ earlier.equations, a.Separated earlier.iterationSpace e)
    (hpass : ∀ d ∈ later, ∀ a ∈ d.equations, a.Independent e) :
    Arranged space (done ++ [e]) (later ++ joined :: rest) := by
  constructor
  case mem_iff =>
    intro a
    rw [exists_mem_join hequations, ← h.mem_iff, List.mem_append, List.mem_singleton]
  case iterationSpace =>
    have hspaces := h.iterationSpace
    rw [List.forall_mem_append, List.forall_mem_cons] at hspaces ⊢
    refine ⟨hspaces.1, ?_, hspaces.2.2⟩
    intro a ha
    rw [hequations, List.mem_append, List.mem_singleton] at ha
    rw [hkept]
    rcases ha with ha | rfl
    · exact hspaces.2.1 a ha
    · exact hspace
  case inOrder =>
    have hgrow {l : List Equation} (hl : l.Sublist done) : l.Sublist (done ++ [e]) :=
      hl.trans (List.sublist_append_left done [e])
    have horder := h.inOrder
    rw [List.forall_mem_append, List.forall_mem_cons] at horder ⊢
    refine ⟨fun d hd => hgrow (horder.1 d hd), ?_, fun d hd => hgrow (horder.2.2 d hd)⟩
    rw [hequations]
    exact horder.2.1.append (List.Sublist.refl [e])
  case separated =>
    have hold := h.separated
    rw [List.forall_mem_append, List.forall_mem_cons] at hold ⊢
    refine ⟨hold.1, ?_, hold.2.2⟩
    rw [hequations, hkept, List.pairwise_append]
    refine ⟨hold.2.1, List.pairwise_singleton _ _, ?_⟩
    intro a ha b hb
    rw [List.mem_singleton.1 hb]
    exact hseparated a ha
  case across =>
    have hacross := h.across
    rw [List.pairwise_append, List.pairwise_cons] at hacross ⊢
    obtain ⟨hlater, ⟨hearlier, hrest⟩, hcross⟩ := hacross
    refine ⟨hlater.imp fun hd => hd.concat e, ⟨?_, hrest.imp fun hd => hd.concat e⟩, ?_⟩
    · intro d hd
      apply join_follows (hearlier d hd) hequations
      intro a ha
      exact (h.mem_iff a).2 ⟨d, by simp [hd], ha⟩
    · intro d hd d' hd'
      rcases List.mem_cons.1 hd' with rfl | hd'
      · exact follows_join (hcross d hd earlier (List.mem_cons_self ..)) hequations (hpass d hd)
      · exact (hcross d hd d' (List.mem_cons_of_mem _ hd')).concat e

end Join

theorem addLatest {cs' : List Cluster} (h : Arranged space done cs)
    (hequations : c.equations = [e]) (hspace : c.iterationSpace = space e) (hnew : e ∉ done)
    (hall : ∀ a ∈ done ++ [e], a.UniformAssignment)
    (hloops : ∀ a ∈ done, (space a).dimensions = a.loops)
    (hadd : (Cluster.addLatest cs c).run.value = .ok cs') : Arranged space (done ++ [e]) cs' := by
  rcases addLatest_eq_ok hadd with ⟨atomics, rfl⟩ | ⟨later, earlier, rest, rfl, rfl, hpass, hfuse⟩
  · exact h.cons hequations hspace
  · have hdone {d : Cluster} (hd : d ∈ later ++ earlier :: rest) {a : Equation}
        (ha : a ∈ d.equations) : a ∈ done := (h.mem_iff a).2 ⟨d, hd, ha⟩
    have hjudged {d : Cluster} (hd : d ∈ later ++ earlier :: rest) :
        ∀ a ∈ d.equations ++ c.equations, a.UniformAssignment := by
      intro a ha
      rw [hequations, List.mem_append] at ha
      exact hall a (List.mem_append.2 (ha.imp_left (hdone hd)))
    have hearlier : earlier ∈ later ++ earlier :: rest := by simp
    have he : e ∈ c.equations := by simp [hequations]
    obtain ⟨s, -, hfusible⟩ := fusible_of_fuse hfuse
    -- A new equation is not among those of the cluster, so it is added at the end.
    have hnot : e ∉ earlier.equations := fun hmem => hnew (hdone hearlier hmem)
    apply h.join
    · unfold absorb addEquations
      simp [hequations, hnot]
    · rfl
    · rw [hfusible.iterationSpace, hspace]
    · intro a ha
      apply separated_of_fuse hfuse (hjudged hearlier) ha he
      rw [h.iterationSpace earlier hearlier a ha, hloops a (hdone hearlier ha)]
    · intro d hd a ha
      exact independent_of_pass (hpass d hd) (hjudged (by simp [hd])) ha he

section Single

variable {single : Equation → Cluster}

theorem foldlM {eqs : List Equation} {cs' : List Cluster} (h : Arranged space done cs)
    (hsingle : ∀ a, (single a).equations = [a]) (hspace : ∀ a, (single a).iterationSpace = space a)
    (hnodup : (done ++ eqs).Nodup) (hall : ∀ a ∈ done ++ eqs, a.UniformAssignment)
    (hloops : ∀ a, (space a).dimensions = a.loops)
    (hfold : ((eqs.map single).foldlM Cluster.addLatest cs).run.value = .ok cs') :
    Arranged space (done ++ eqs) cs' := by
  induction eqs generalizing done cs with
  | nil =>
    obtain rfl := Except.ok.inj hfold
    rw [List.append_nil]
    exact h
  | cons a eqs ih =>
    rw [List.map_cons, List.foldlM_cons, Analysis.value_bind_eq_ok] at hfold
    obtain ⟨cs'', hadd, hfold⟩ := hfold
    rw [List.append_cons] at hnodup hall ⊢
    have hnew : a ∉ done := (List.nodup_append_comm.1 hnodup.of_append_left).notMem
    have hstep : Arranged space (done ++ [a]) cs'' :=
      h.addLatest (hsingle a) (hspace a) hnew (fun b hb => hall b (List.mem_append_left _ hb))
        (fun b _ => hloops b) hadd
    exact ih hstep hnodup hall hfold

theorem append_map {eqs : List Equation} (h : Arranged space done cs)
    (hsingle : ∀ a, (single a).equations = [a])
    (hspace : ∀ a, (single a).iterationSpace = space a) :
    Arranged space (done ++ eqs) ((eqs.map single).reverse ++ cs) := by
  induction eqs generalizing done cs with
  | nil =>
    rw [List.append_nil]
    exact h
  | cons a eqs ih =>
    rw [List.map_cons, List.reverse_cons, ← List.append_cons, List.append_cons done]
    exact ih (h.cons (hsingle a) (hspace a))

end Single

end Arranged

end Cluster

end Stencil
