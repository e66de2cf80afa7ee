import Stencil.Proofs.DataSpace.Union
import Stencil.Proofs.Fusion.Arrange
import Stencil.Proofs.Fusion.Verdict

/-!
This module contains where the equations of a program go when clusters are fused. The positions of
clusters do not change once they are there, so each equation goes to a position.
-/

namespace Stencil

def LoweredEquation.Unrelated (a b : LoweredEquation) : Prop :=
  ∃ s, (Scope.ofLowered [a, b]).run.value = .ok s ∧ Cluster.crossing 1 s.dependences = []

namespace Cluster

/--
The position of the cluster that `c` joins among earlier clusters, of which the latest one comes
first.
-/
def joins? (c : Cluster) : List Cluster → Analysis (Option Nat)
  | [] => return none
  | earlier :: rest => do
    match ← earlier.judge c with
    | .fuse => return some rest.length
    | .stay _ => return none
    | .pass => joins? c rest

def destination (earlier : List Cluster) (c : Cluster) : Analysis Nat := do
  if c.guards.isEmpty then
    return (← c.joins? earlier).getD earlier.length
  else
    return earlier.length

def destinations (earlier : List Cluster) : List Cluster → Analysis (List Nat)
  | [] => return []
  | c :: cs => do
    let n ← destination earlier c
    let earlier ← addLatest earlier c
    return n :: (← destinations earlier cs)

section Step

variable {c : Cluster} {cs cs' : List Cluster}

theorem joins?_append {later rest : List Cluster} {earlier : Cluster}
    (hpass : ∀ d ∈ later, (d.judge c).run.value = .ok .pass)
    (hfuse : (earlier.judge c).run.value = .ok .fuse) :
    (joins? c (later ++ earlier :: rest)).run.value = .ok (some rest.length) := by
  induction later with
  | nil =>
    rw [List.nil_append, joins?, Analysis.value_bind_of_ok hfuse]
    rfl
  | cons d later ih =>
    rw [List.forall_mem_cons] at hpass
    rw [List.cons_append, joins?, Analysis.value_bind_of_ok hpass.1]
    exact ih hpass.2

theorem joins?_of_alone {atomics : OrdSet Dimension}
    (h : (place c cs).run.value = .ok (.alone atomics)) :
    (joins? c cs).run.value = .ok none := by
  induction cs with
  | nil => rfl
  | cons d cs ih =>
    rw [place, Analysis.value_bind_eq_ok] at h
    obtain ⟨v, hv, h⟩ := h
    rw [joins?, Analysis.value_bind_of_ok hv]
    cases v with
    | fuse => cases h
    | stay _ => rfl
    | pass =>
      dsimp only at h
      rw [Analysis.value_bind_eq_ok] at h
      obtain ⟨placement, hplace, h⟩ := h
      cases placement with
      | joined cs' => cases h
      | alone atomics' =>
        obtain rfl := Placement.alone.inj (Except.ok.inj h)
        exact ih hplace

inductive Added (c : Cluster) : List Cluster → Nat → List Cluster → Prop where
  | alone (cs : List Cluster) (atomics : OrdSet Dimension) :
    Added c cs cs.length (cs ++ [{ c with atomics := atomics }])
  | joined {before later : List Cluster} {earlier : Cluster} (unguarded : c.guards.isEmpty = true)
    (fuse : (earlier.judge c).run.value = .ok .fuse)
    (pass : ∀ d ∈ later, (d.judge c).run.value = .ok .pass) :
    Added c (before ++ earlier :: later) before.length (before ++ earlier.absorb c :: later)

theorem added_of_addLatest (h : (addLatest cs c).run.value = .ok cs') :
    ∃ n, (destination cs c).run.value = .ok n ∧ Added c cs.reverse n cs'.reverse := by
  have halone (atomics : OrdSet Dimension) :
      Added c cs.reverse cs.length (({ c with atomics := atomics } :: cs).reverse) := by
    rw [List.reverse_cons, ← List.length_reverse]
    exact .alone cs.reverse atomics
  unfold addLatest at h
  unfold destination
  split at h
  · next hguards =>
    rw [Analysis.value_bind_eq_ok] at h
    obtain ⟨placement, hplace, h⟩ := h
    rw [if_pos hguards]
    cases placement with
    | joined cs'' =>
      obtain rfl := Except.ok.inj h
      obtain ⟨later, earlier, rest, rfl, rfl, hpass, hfuse⟩ := place_eq_joined hplace
      refine ⟨rest.length, Analysis.value_bind_of_ok (joins?_append hpass hfuse), ?_⟩
      simp only [List.reverse_append, List.reverse_cons, List.append_assoc, List.singleton_append]
      rw [← List.length_reverse]
      exact .joined hguards hfuse fun d hd => hpass d (List.mem_reverse.1 hd)
    | alone atomics =>
      obtain rfl := Except.ok.inj h
      exact ⟨cs.length, Analysis.value_bind_of_ok (joins?_of_alone hplace), halone _⟩
  · next hguards =>
    obtain rfl := Except.ok.inj h
    rw [if_neg hguards]
    exact ⟨cs.length, rfl, halone c.atomics⟩

end Step

structure Gathers (c : Cluster) (members : List LoweredEquation) : Prop where
  nonempty : members ≠ []
  equations : c.equations = (members.map (·.equation)).eraseDups
  iterationSpace : ∀ e ∈ members, e.iterationSpace = c.iterationSpace
  guards : ∀ e ∈ members, e.guards = c.guards
  alone : c.guards.isEmpty = false → members.length = 1
  dataSpace : (∀ e ∈ members, e.dataSpace.Recorded) →
    c.dataSpace = .union (members.map (·.dataSpace))

theorem Gathers.mem_executed {c : Cluster} {members : List LoweredEquation}
    (h : c.Gathers members) {e : LoweredEquation} (he : e ∈ members) :
    (e.equation, e.iterationSpace) ∈ c.executed := by
  rw [Cluster.mem_executed, h.equations, List.mem_eraseDups]
  exact ⟨List.mem_map_of_mem he, h.iterationSpace e he⟩

theorem gathers_ofLowered (e : LoweredEquation) (atomics : OrdSet Dimension) :
    Gathers { ofLowered e with atomics := atomics } [e] where
  nonempty := List.cons_ne_nil e []
  equations := rfl
  iterationSpace := by simp [ofLowered]
  guards := by simp [ofLowered]
  alone _ := rfl
  dataSpace h := (h e (List.mem_singleton_self e)).wellFormed.union_singleton.symm

theorem equations_absorb_ofLowered (c : Cluster) (e : LoweredEquation) :
    (c.absorb (ofLowered e)).equations =
      if e.equation ∈ c.equations then c.equations else c.equations ++ [e.equation] := by
  unfold absorb addEquations ofLowered
  simp only [List.foldl_cons, List.foldl_nil, List.contains_iff_mem]

theorem eraseDups_concat {α : Type} [DecidableEq α] (as : List α) (a : α) :
    (as ++ [a]).eraseDups = if a ∈ as then as.eraseDups else as.eraseDups ++ [a] := by
  rw [List.eraseDups_append]
  split
  · next h => simp [List.removeAll, h]
  · next h => simp [List.removeAll, h, List.eraseDups_cons]

theorem Gathers.absorb {c : Cluster} {members : List LoweredEquation} {e : LoweredEquation}
    (h : c.Gathers members) (hguards : e.guards.isEmpty = true)
    (hfuse : (c.judge (ofLowered e)).run.value = .ok .fuse) :
    (c.absorb (ofLowered e)).Gathers (members ++ [e]) := by
  obtain ⟨s, -, hfusible⟩ := fusible_of_fuse hfuse
  constructor
  case nonempty => exact List.append_ne_nil_of_right_ne_nil _ (List.cons_ne_nil e [])
  case equations =>
    rw [equations_absorb_ofLowered, h.equations, List.map_append, List.map_singleton,
      eraseDups_concat]
    simp only [List.mem_eraseDups]
  case iterationSpace =>
    rw [List.forall_mem_append]
    refine ⟨h.iterationSpace, ?_⟩
    rintro _ (_ | ⟨_, ⟨⟩⟩)
    exact hfusible.iterationSpace.symm
  case guards =>
    have hempty {m : OrdMap Dimension Guard} (hm : m.isEmpty = true) : m = .empty :=
      OrdMap.ext (List.isEmpty_iff.1 hm)
    rw [List.forall_mem_append]
    refine ⟨h.guards, ?_⟩
    rintro _ (_ | ⟨_, ⟨⟩⟩)
    exact (hempty hguards).trans (hempty hfusible.unguarded).symm
  case alone =>
    intro hguarded
    have : c.guards.isEmpty = false := hguarded
    rw [hfusible.unguarded] at this
    cases this
  case dataSpace =>
    intro hrecorded
    rw [List.forall_mem_append, List.forall_mem_singleton] at hrecorded
    calc (c.absorb (ofLowered e)).dataSpace
      _ = .union [c.dataSpace, e.dataSpace] := rfl
      _ = .union [.union (members.map (·.dataSpace)), .union [e.dataSpace]] := by
        rw [h.dataSpace hrecorded.1, hrecorded.2.wellFormed.union_singleton]
      _ = .union ((members ++ [e]).map (·.dataSpace)) := by
        rw [DataSpace.union_pair, List.map_append, List.map_singleton]

theorem unrelated_of_pass {c : Cluster} {a b : LoweredEquation}
    (ha : (a.equation, a.iterationSpace) ∈ c.executed)
    (hpass : (c.judge (ofLowered b)).run.value = .ok .pass) : a.Unrelated b := by
  obtain ⟨s, hs, hcrossing⟩ := crossing_of_pass hpass
  obtain ⟨t, ht⟩ := List.mem_iff_getElem?.1 ha
  have hlength : c.executed.length = c.equations.length := List.length_map _
  have hlt : t < c.equations.length := by
    rw [← hlength]
    exact (List.getElem?_eq_some_iff.1 ht).1
  have hembeds : Scope.Embeds (fun u => if u = 0 then t else c.equations.length + (u - 1))
      [(a.equation, a.iterationSpace), (b.equation, b.iterationSpace)]
      (c.executed ++ (ofLowered b).executed) := by
    constructor
    · intro u v huv
      dsimp only
      split <;> split <;> omega
    · intro u e hu
      obtain _ | _ | u := u
      · obtain rfl := Option.some.inj hu
        rw [if_pos rfl, List.getElem?_append_left (by rw [hlength]; exact hlt)]
        exact ht
      · obtain rfl := Option.some.inj hu
        rw [if_neg (Nat.succ_ne_zero 0), List.getElem?_append_right (by rw [hlength]; omega),
          hlength]
        simp [executed, ofLowered]
      · cases hu
  obtain ⟨s', hs'⟩ := Scope.exists_ofEquations_of_subset hs hembeds.mem
  refine ⟨s', hs', ?_⟩
  rw [List.eq_nil_iff_forall_not_mem]
  intro d hd
  obtain ⟨hmem, hcross⟩ := mem_crossing.1 hd
  have hd' := hembeds.retimed_mem_dependences hs' hs hmem
  refine List.eq_nil_iff_forall_not_mem.1 (hcrossing) (d.retimed _) (mem_crossing.2 ⟨hd', ?_⟩)
  dsimp only [Dependence.retimed, TimedAccess.retimed]
  split <;> split <;> omega

def sentTo (n : Nat) (sent : List (LoweredEquation × Nat)) : List LoweredEquation :=
  (sent.filter fun e => e.2 = n).map (·.1)

theorem mem_sentTo {n : Nat} {sent : List (LoweredEquation × Nat)} {e : LoweredEquation} :
    e ∈ sentTo n sent ↔ (e, n) ∈ sent := by
  unfold sentTo
  simp

theorem sentTo_concat (n m : Nat) (sent : List (LoweredEquation × Nat)) (e : LoweredEquation) :
    sentTo n (sent ++ [(e, m)]) = if m = n then sentTo n sent ++ [e] else sentTo n sent := by
  unfold sentTo
  rw [List.filter_append, List.map_append]
  split
  · next h => simp [h]
  · next h => simp [h]

/-- The clusters of equations that went to positions; none of them passed one that it depends on. -/
structure Distributed (sent : List (LoweredEquation × Nat)) (clusters : List Cluster) : Prop where
  lt : ∀ e ∈ sent, e.2 < clusters.length
  gathers : ∀ (n : Nat) (c : Cluster), clusters[n]? = some c → c.Gathers (sentTo n sent)
  hoisted : sent.Pairwise fun a b => b.2 < a.2 → a.1.Unrelated b.1

namespace Distributed

variable {sent : List (LoweredEquation × Nat)} {clusters clusters' : List Cluster}

theorem nil : Distributed [] [] where
  lt := by simp
  gathers := by simp
  hoisted := .nil

theorem exists_cluster (h : Distributed sent clusters) {e : LoweredEquation × Nat} (he : e ∈ sent) :
    ∃ c, clusters[e.2]? = some c ∧ c.Gathers (sentTo e.2 sent) ∧ e.1 ∈ sentTo e.2 sent := by
  have hget := List.getElem?_eq_getElem (h.lt e he)
  exact ⟨_, hget, h.gathers _ _ hget, mem_sentTo.2 he⟩

theorem concat_alone (h : Distributed sent clusters) (e : LoweredEquation)
    (atomics : OrdSet Dimension) :
    Distributed (sent ++ [(e, clusters.length)])
      (clusters ++ [{ ofLowered e with atomics := atomics }]) where
  lt := by
    simp only [List.mem_append, List.mem_singleton, List.length_append, List.length_singleton]
    rintro a (ha | rfl)
    · exact Nat.lt_succ_of_lt (h.lt a ha)
    · exact Nat.lt_succ_self _
  gathers n c hc := by
    rw [sentTo_concat]
    split
    · next hn =>
      subst hn
      have hnone : sentTo clusters.length sent = [] := by
        rw [List.eq_nil_iff_forall_not_mem]
        intro a ha
        exact Nat.lt_irrefl _ (h.lt _ (mem_sentTo.1 ha))
      rw [List.getElem?_concat_length] at hc
      rw [hnone, ← Option.some.inj hc]
      exact gathers_ofLowered e atomics
    · next hn =>
      have hlt : n < clusters.length := by
        have := (List.getElem?_eq_some_iff.1 hc).1
        rw [List.length_append, List.length_singleton] at this
        omega
      rw [List.getElem?_append_left hlt] at hc
      exact h.gathers n c hc
  hoisted := by
    rw [List.pairwise_append]
    refine ⟨h.hoisted, List.pairwise_singleton _ _, ?_⟩
    intro a ha b hb hlt
    rw [List.mem_singleton.1 hb] at hlt
    exact absurd (h.lt a ha) (Nat.lt_asymm hlt)

theorem concat_joined {before later : List Cluster} {earlier : Cluster} {e : LoweredEquation}
    (h : Distributed sent (before ++ earlier :: later)) (hguards : e.guards.isEmpty = true)
    (hfuse : (earlier.judge (ofLowered e)).run.value = .ok .fuse)
    (hpass : ∀ d ∈ later, (d.judge (ofLowered e)).run.value = .ok .pass) :
    Distributed (sent ++ [(e, before.length)])
      (before ++ earlier.absorb (ofLowered e) :: later) := by
  have hget (c : Cluster) {n : Nat} (hn : before.length ≠ n) :
      (before ++ c :: later)[n]? = (before ++ earlier :: later)[n]? := by
    rcases Nat.lt_or_gt_of_ne hn with hlt | hgt
    · rw [List.getElem?_append_right hlt.le, List.getElem?_append_right hlt.le,
        List.getElem?_cons, List.getElem?_cons, if_neg (by omega), if_neg (by omega)]
    · rw [List.getElem?_append_left hgt, List.getElem?_append_left hgt]
  constructor
  case lt =>
    simp only [List.mem_append, List.mem_singleton]
    rintro a (ha | rfl)
    · simpa using h.lt a ha
    · simp
  case gathers =>
    intro n c hc
    rw [sentTo_concat]
    split
    · next hn =>
      subst hn
      rw [List.getElem?_append_right (Nat.le_refl _), Nat.sub_self] at hc
      obtain rfl := Option.some.inj hc
      exact (h.gathers before.length earlier (by simp)).absorb hguards hfuse
    · next hn =>
      rw [hget _ hn] at hc
      exact h.gathers n c hc
  case hoisted =>
    rw [List.pairwise_append]
    refine ⟨h.hoisted, List.pairwise_singleton _ _, ?_⟩
    intro a ha b hb hlt
    rw [List.mem_singleton.1 hb] at hlt ⊢
    -- The cluster of `a` is one of those that were passed.
    obtain ⟨c, hc, hgathers, hmem⟩ := h.exists_cluster ha
    have hlater : c ∈ later := by
      rw [List.getElem?_append_right hlt.le, List.getElem?_cons, if_neg (by omega)] at hc
      exact List.mem_of_getElem? hc
    exact unrelated_of_pass (hgathers.mem_executed hmem) (hpass c hlater)

theorem added (h : Distributed sent clusters) {e : LoweredEquation} {n : Nat}
    (hadded : Added (ofLowered e) clusters n clusters') :
    Distributed (sent ++ [(e, n)]) clusters' := by
  cases hadded with
  | alone _ atomics => exact h.concat_alone e atomics
  | joined hguards hfuse hpass => exact h.concat_joined hguards hfuse hpass

variable {P : List (LoweredEquation × Nat) → Prop}

theorem foldlM (hstep : ∀ sent clusters e n clusters', Distributed sent clusters → P sent →
      Added (ofLowered e) clusters n clusters' → P (sent ++ [(e, n)]))
    {es : List LoweredEquation} {cs cs' : List Cluster}
    (h : Distributed sent cs.reverse) (hP : P sent)
    (hfold : ((es.map ofLowered).foldlM addLatest cs).run.value = .ok cs') :
    ∃ positions, (destinations cs (es.map ofLowered)).run.value = .ok positions ∧
      positions.length = es.length ∧ Distributed (sent ++ es.zip positions) cs'.reverse ∧
      P (sent ++ es.zip positions) := by
  induction es generalizing sent cs with
  | nil =>
    obtain rfl := Except.ok.inj hfold
    exact ⟨[], rfl, rfl, by simpa using h, by simpa using hP⟩
  | cons e es ih =>
    rw [List.map_cons, List.foldlM_cons, Analysis.value_bind_eq_ok] at hfold
    obtain ⟨cs'', hadd, hfold⟩ := hfold
    obtain ⟨n, hn, hadded⟩ := added_of_addLatest hadd
    obtain ⟨positions, hpositions, hlength, hdistributed, hP⟩ :=
      ih (h.added hadded) (hstep _ _ _ _ _ h hP hadded) hfold
    refine ⟨n :: positions, ?_, by simp [hlength], by simpa using hdistributed, by simpa using hP⟩
    rw [List.map_cons, destinations, Analysis.value_bind_of_ok hn, Analysis.value_bind_of_ok hadd,
      Analysis.value_bind_of_ok hpositions]
    rfl

end Distributed

theorem exists_destinations_of_step {P : List (LoweredEquation × Nat) → Prop} (hnil : P [])
    (hstep : ∀ sent clusters e n clusters', Distributed sent clusters → P sent →
      Added (ofLowered e) clusters n clusters' → P (sent ++ [(e, n)]))
    {es : List LoweredEquation} {clusters : List Cluster}
    (h : (ofProgram true es).run.value = .ok clusters) :
    ∃ positions, (destinations [] (es.map ofLowered)).run.value = .ok positions ∧
      positions.length = es.length ∧ Distributed (es.zip positions) clusters ∧
      P (es.zip positions) := by
  unfold ofProgram at h
  rw [if_pos rfl] at h
  unfold fuseAll at h
  rw [Analysis.value_bind_eq_ok] at h
  obtain ⟨cs, hfold, heq⟩ := h
  obtain rfl := Except.ok.inj heq
  exact Distributed.nil.foldlM hstep hnil hfold

theorem exists_destinations {es : List LoweredEquation} {clusters : List Cluster}
    (h : (ofProgram true es).run.value = .ok clusters) :
    ∃ positions, (destinations [] (es.map ofLowered)).run.value = .ok positions ∧
      positions.length = es.length ∧ Distributed (es.zip positions) clusters := by
  obtain ⟨positions, hpositions, hlength, hsent, -⟩ :=
    exists_destinations_of_step (P := fun _ => True) trivial (fun _ _ _ _ _ _ _ _ => trivial) h
  exact ⟨positions, hpositions, hlength, hsent⟩

end Cluster

end Stencil
