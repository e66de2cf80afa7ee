import Stencil.Proofs.Fusion.Judge
import Stencil.Proofs.Scope.Part

/-!
This module contains verdicts about clusters that grow. Clusters that were kept apart are kept apart
when they have grown.
-/

namespace Stencil

namespace Cluster

def executed (c : Cluster) : List (Equation × IterationSpace) :=
  c.equations.map (·, c.iterationSpace)

theorem mem_executed {c : Cluster} {e : Equation × IterationSpace} :
    e ∈ c.executed ↔ e.1 ∈ c.equations ∧ e.2 = c.iterationSpace := by
  unfold executed
  rw [List.mem_map]
  constructor
  · rintro ⟨eq, heq, rfl⟩
    exact ⟨heq, rfl⟩
  · rintro ⟨heq, hspace⟩
    exact ⟨e.1, heq, Prod.ext rfl hspace.symm⟩

theorem exists_jointScope_of_subset {eqs : List (Equation × IterationSpace)} {s : Scope}
    (h : (Scope.ofEquations eqs).run.value = .ok s) {c d : Cluster} (hc : c.executed ⊆ eqs)
    (hd : d.executed ⊆ eqs) : ∃ s, (c.jointScope d).run.value = .ok s :=
  Scope.exists_ofEquations_of_subset h (List.append_subset.2 ⟨hc, hd⟩)

variable {earlier c : Cluster} {s : Scope}

structure Grows (c c' : Cluster) : Prop where
  equations : c.equations <+: c'.equations
  iterationSpace : c.iterationSpace = c'.iterationSpace
  guards : c.guards = c'.guards
  atomics : ∀ d, c.atomics.contains d = true → c'.atomics.contains d = true

namespace Grows

variable {earlier' c' : Cluster} {s' : Scope}

protected theorem refl (c : Cluster) : Grows c c where
  equations := List.prefix_refl _
  iterationSpace := rfl
  guards := rfl
  atomics _ h := h

protected theorem trans {c'' : Cluster} (h : Grows c c') (h' : Grows c' c'') : Grows c c'' where
  equations := h.equations.trans h'.equations
  iterationSpace := h.iterationSpace.trans h'.iterationSpace
  guards := h.guards.trans h'.guards
  atomics d hd := h'.atomics d (h.atomics d hd)

theorem getElem?_executed (h : Grows c c') {t : Nat} {e : Equation × IterationSpace}
    (he : c.executed[t]? = some e) : c'.executed[t]? = some e := by
  unfold executed at he ⊢
  rw [List.getElem?_map, Option.map_eq_some_iff] at he ⊢
  obtain ⟨eq, heq, rfl⟩ := he
  rw [h.iterationSpace]
  exact ⟨eq, List.getElem?_eq_some_iff.1 heq |>.elim
    fun ht hget => (List.prefix_iff_getElem?.1 h.equations t ht).trans (congrArg some hget), rfl⟩

/-- Where the equations of two clusters are after the first one has got `n'` equations. -/
def shifted (n n' t : Nat) : Nat := if t < n then t else n' + (t - n)

theorem strictMono_shifted {n n' : Nat} (h : n ≤ n') : StrictMono (shifted n n') := by
  intro t u htu
  unfold shifted
  split <;> split <;> omega

theorem embeds (h : Grows earlier earlier') (hc : Grows c c') :
    Scope.Embeds (shifted earlier.equations.length earlier'.equations.length)
      (earlier.executed ++ c.executed) (earlier'.executed ++ c'.executed) where
  strictMono := strictMono_shifted h.equations.length_le
  getElem?_eq t e ht := by
    have hlength (d : Cluster) : d.executed.length = d.equations.length := List.length_map _
    have hle := h.equations.length_le
    unfold shifted
    split
    · next hlt =>
      rw [List.getElem?_append_left (by rw [hlength]; exact hlt)] at ht
      rw [List.getElem?_append_left (by rw [hlength]; omega)]
      exact h.getElem?_executed ht
    · next hge =>
      rw [List.getElem?_append_right (by rw [hlength]; omega), hlength] at ht
      rw [List.getElem?_append_right (by rw [hlength]; omega), hlength,
        Nat.add_sub_cancel_left]
      exact hc.getElem?_executed ht

theorem retimed_mem_crossing {n n' : Nat} (hle : n ≤ n') {ds ds' : List Dependence}
    {d : Dependence} (hds : ∀ d ∈ ds, d.retimed (shifted n n') ∈ ds') (hd : d ∈ crossing n ds) :
    d.retimed (shifted n n') ∈ crossing n' ds' := by
  obtain ⟨hmem, hcross⟩ := mem_crossing.1 hd
  refine mem_crossing.2 ⟨hds d hmem, ?_⟩
  have hside (t : Nat) : (shifted n n' t < n' ↔ t < n) ∧ (n' ≤ shifted n n' t ↔ n ≤ t) := by
    unfold shifted
    split <;> omega
  exact hcross.imp
    (fun h => ⟨(hside _).1.2 h.1, (hside _).2.2 h.2⟩)
    (fun h => ⟨(hside _).2.2 h.1, (hside _).1.2 h.2⟩)

section Joint

variable (h : Grows earlier earlier') (hc : Grows c c')
variable (hs : (earlier.jointScope c).run.value = .ok s)
variable (hs' : (earlier'.jointScope c').run.value = .ok s')
include h hc hs hs'

theorem fusible (hfusible : Fusible earlier' c' s') : Fusible earlier c s where
  unguarded := h.guards ▸ hfusible.unguarded
  iterationSpace := by
    rw [h.iterationSpace, hc.iterationSpace]
    exact hfusible.iterationSpace
  anti d hd := by
    have hd' := retimed_mem_crossing h.equations.length_le
      (fun _ => (h.embeds hc).retimed_mem_anti hs hs') hd
    exact hfusible.anti (d.retimed _) hd'
  flow d hd x hcause hatomic := by
    have hd' := retimed_mem_crossing h.equations.length_le
      (fun _ => (h.embeds hc).retimed_mem_flow hs hs') hd
    exact hfusible.flow (d.retimed _) hd' x hcause (h.atomics x hatomic)

theorem judge_ne_fuse (hjudge : (judge earlier c).run.value ≠ .ok .fuse) :
    (judge earlier' c').run.value ≠ .ok .fuse := by
  intro hfuse
  obtain ⟨s'', hs'', hfusible⟩ := fusible_of_fuse hfuse
  obtain rfl := Except.ok.inj (hs'.symm.trans hs'')
  rcases judge_cases hs with ⟨-, hjudge'⟩ | ⟨hnot, -⟩ | ⟨hnot, -⟩
  · exact hjudge hjudge'
  · exact hnot (h.fusible hc hs hs' hfusible)
  · exact hnot (h.fusible hc hs hs' hfusible)

theorem exists_stay {atomics : OrdSet Dimension}
    (hstay : (judge earlier c).run.value = .ok (.stay atomics)) :
    ∃ atomics, (judge earlier' c').run.value = .ok (.stay atomics) := by
  have hne : (judge earlier c).run.value ≠ .ok .fuse := by
    rw [hstay]
    nofun
  have hcrossing : crossing earlier.equations.length s.dependences ≠ [] := by
    rcases judge_cases hs with ⟨-, hfuse⟩ | ⟨-, hcrossing, -⟩ | ⟨-, -, hpass⟩
    · exact absurd hfuse hne
    · exact hcrossing
    · rw [hstay] at hpass
      cases hpass
  obtain ⟨d, hd⟩ := List.exists_mem_of_ne_nil _ hcrossing
  have hd' := retimed_mem_crossing h.equations.length_le
    (fun _ => (h.embeds hc).retimed_mem_dependences hs hs') hd
  rcases judge_cases hs' with ⟨-, hfuse⟩ | ⟨-, -, hstay'⟩ | ⟨-, hempty, -⟩
  · exact absurd hfuse (h.judge_ne_fuse hc hs hs' hne)
  · exact hstay'
  · rw [hempty] at hd'
    cases hd'

end Joint

end Grows

end Cluster

end Stencil
