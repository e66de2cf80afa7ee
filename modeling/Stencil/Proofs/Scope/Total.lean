import Stencil.Proofs.Scope.Basic

/-!
This module contains when the analysis of equations succeeds: all references have an index along
each dimension of their array, and the spaces of the equations agree about directions.
-/

namespace Stencil

def Reference.Complete (r : Reference) : Prop :=
  r.indices.length = r.function.dimensions.length

theorem Dependence.exists_between (kind : DependenceKind) {a b : TimedAccess} (h : a.Aligned b) :
    ∃ d, (between kind a b).run.value = .ok d := by
  have hdistance := TimedAccess.distance_eq_ok.2 ⟨h, rfl⟩
  unfold between
  rw [Analysis.value_bind_of_ok hdistance]
  dsimp only
  split
  · exact ⟨_, rfl⟩
  · exact ⟨_, rfl⟩

theorem TimedAccess.exists_samePoint {a b : TimedAccess} (h : a.Aligned b) :
    ∃ t, (a.samePoint b).run.value = .ok t := by
  have haccess : ∃ t, (a.access.samePoint b.access).run.value = .ok t := by
    unfold Access.samePoint
    have hsub : (a.access.indices.sub b.access.indices).run.value = _ :=
      OffsetVector.value_sub h.rank
    rw [Analysis.value_bind_of_ok (Access.checkDimensions_eq_ok (u := ()).2 h.dimensions)]
    split
    · rw [Analysis.value_bind_of_ok hsub]
      exact ⟨_, rfl⟩
    · exact ⟨false, rfl⟩
  obtain ⟨t, ht⟩ := haccess
  unfold samePoint
  rw [Analysis.value_bind_of_ok ht]
  exact ⟨_, rfl⟩

theorem TimedAccess.aligned_ofReference {space space' : IterationSpace}
    (hdirection : space.direction = space'.direction) {r r' : Reference}
    (hr : r.Complete) (hr' : r'.Complete) (hf : r.function = r'.function) {t t' : Nat}
    {i i' : Bool} {m m' : AccessMode} :
    (ofReference space t i m r).Aligned (ofReference space' t' i' m' r') where
  dimensions := congrArg FunctionDecl.dimensions hf
  directions := by
    rw [directions_ofReference, directions_ofReference, hf, hdirection]
  rank := by
    unfold Reference.Complete at hr hr'
    rw [indices_ofReference, indices_ofReference, hr, hr', hf]

namespace Scope

theorem exists_comes (side : Ordering) (tie : Bool) {a b : TimedAccess} (h : a.Aligned b) :
    ∃ t, (comes side tie a b).run.value = .ok t := by
  unfold comes
  rw [Analysis.value_bind_of_ok (TimedAccess.compare?_eq_ok.2 ⟨h, rfl⟩)]
  split
  · exact ⟨true, rfl⟩
  · split
    · exact ⟨true, rfl⟩
    · obtain ⟨t, ht⟩ := TimedAccess.exists_samePoint h
      exact ⟨_, Analysis.value_bind_of_ok ht⟩

theorem exists_gather (kind : DependenceKind)
    (test : TimedAccess → TimedAccess → Analysis Bool) {ps : List (TimedAccess × TimedAccess)}
    (haligned : ∀ p ∈ ps, p.1.Aligned p.2)
    (htest : ∀ p ∈ ps, ∃ t, (test p.1 p.2).run.value = .ok t) :
    ∃ ds, (gather kind test ps).run.value = .ok ds := by
  induction ps with
  | nil => exact ⟨[], rfl⟩
  | cons p ps ih =>
    obtain ⟨a, b⟩ := p
    rw [List.forall_mem_cons] at htest haligned
    obtain ⟨ds, hds⟩ := ih haligned.2 htest.2
    obtain ⟨t, ht⟩ := htest.1
    rw [gather, Analysis.value_bind_of_ok ht]
    cases t with
    | false => exact ⟨ds, hds⟩
    | true =>
      obtain ⟨d, hd⟩ := Dependence.exists_between kind haligned.1
      refine ⟨d :: ds, ?_⟩
      rw [if_pos rfl, Analysis.value_bind_of_ok hd, Analysis.value_bind_of_ok hds]
      rfl

theorem exists_ofAccesses {reads writes : AccessMap}
    (hread : ∀ f, ∀ w ∈ writes.of f, ∀ r ∈ reads.of f, w.Aligned r)
    (hwrite : ∀ f, ∀ w ∈ writes.of f, ∀ w' ∈ writes.of f, w.Aligned w') :
    ∃ s, (ofAccesses reads writes).run.value = .ok s := by
  have hflow : ∀ p ∈ writeReadPairs reads writes, p.1.Aligned p.2 := by
    rintro ⟨w, r⟩ hp
    obtain ⟨f, hw, hr⟩ := mem_writeReadPairs.1 hp
    exact hread f w hw r hr
  have hanti : ∀ p ∈ (writeReadPairs reads writes).map Prod.swap, p.1.Aligned p.2 := by
    intro p hp
    obtain ⟨q, hq, rfl⟩ := List.mem_map.1 hp
    exact (hflow q hq).symm
  have houtput : ∀ p ∈ writeWritePairs writes, p.1.Aligned p.2 := by
    rintro ⟨a, b⟩ hp
    obtain ⟨f, ha, hb⟩ := mem_writeWritePairs.1 hp
    exact hwrite f a ha b hb
  obtain ⟨flow, hflow⟩ := exists_gather .flow isFlow hflow fun p hp => by
    rw [isFlow_eq_comes]
    exact exists_comes _ _ (hflow p hp).symm
  obtain ⟨anti, hanti⟩ := exists_gather .anti isAnti hanti fun p hp => by
    rw [isAnti_eq_comes]
    exact exists_comes _ _ (hanti p hp)
  obtain ⟨output, houtput⟩ := exists_gather .output isOutput houtput
    fun p hp => by
      rw [isOutput_eq_comes]
      exact exists_comes _ _ (houtput p hp)
  unfold ofAccesses
  rw [Analysis.value_bind_of_ok hflow, Analysis.value_bind_of_ok hanti,
    Analysis.value_bind_of_ok houtput]
  exact ⟨_, rfl⟩

theorem exists_ofEquations {eqs : List (Equation × IterationSpace)}
    {direction : Dimension → Direction}
    (hcomplete : ∀ e ∈ eqs, ∀ r ∈ e.1.references, r.Complete)
    (hdirection : ∀ e ∈ eqs, e.2.direction = direction) :
    ∃ s, (ofEquations eqs).run.value = .ok s := by
  have hsame {e e' : Equation × IterationSpace} {t t' : Nat} (he : eqs[t]? = some e)
      (he' : eqs[t']? = some e') : e.2.direction = e'.2.direction := by
    rw [hdirection e (List.mem_of_getElem? he), hdirection e' (List.mem_of_getElem? he')]
  apply exists_ofAccesses
  · intro f a ha b hb
    obtain ⟨e, w, he, hw, hwf, heq⟩ := exists_timedWrite ha
    obtain ⟨e', he', r, hr, hrf, heq'⟩ := exists_timedRead hb
    rw [heq, heq']
    apply TimedAccess.aligned_ofReference (hsame he he')
    · exact hcomplete e (List.mem_of_getElem? he) w (List.mem_append_left _ (by simp [hw]))
    · exact hcomplete e' (List.mem_of_getElem? he') r hr
    · rw [hwf, hrf]
  · intro f a ha b hb
    obtain ⟨e, w, he, hw, hwf, heq⟩ := exists_timedWrite ha
    obtain ⟨e', w', he', hw', hwf', heq'⟩ := exists_timedWrite hb
    rw [heq, heq']
    apply TimedAccess.aligned_ofReference (hsame he he')
    · exact hcomplete e (List.mem_of_getElem? he) w (List.mem_append_left _ (by simp [hw]))
    · exact hcomplete e' (List.mem_of_getElem? he') w' (List.mem_append_left _ (by simp [hw']))
    · rw [hwf, hwf']

end Scope

end Stencil
