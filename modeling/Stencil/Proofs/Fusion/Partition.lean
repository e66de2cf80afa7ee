import Stencil.Proofs.Fusion.Destination
import Stencil.Proofs.Fusion.Preserve

/-!
This module contains what fused clusters have to do with the program. Each equation is in exactly one
cluster, it is executed there as it was lowered, and it only comes before equations that it passed.
-/

namespace Stencil

namespace Cluster

section Sent

variable {sent : List (LoweredEquation × Nat)} {i j n : Nat} {a b : LoweredEquation × Nat}

theorem sentTo_append (n : Nat) (sent sent' : List (LoweredEquation × Nat)) :
    sentTo n (sent ++ sent') = sentTo n sent ++ sentTo n sent' := by
  unfold sentTo
  rw [List.filter_append, List.map_append]

theorem sentTo_eq_of_getElem? (h : sent[j]? = some b) :
    sentTo b.2 sent = sentTo b.2 (sent.take j) ++ b.1 :: sentTo b.2 (sent.drop (j + 1)) := by
  obtain ⟨hj, hb⟩ := List.getElem?_eq_some_iff.1 h
  have hsplit : sent = sent.take j ++ b :: sent.drop (j + 1) := by
    rw [← hb, ← List.drop_eq_getElem_cons hj, List.take_append_drop]
  conv_lhs => rw [hsplit]
  rw [sentTo_append]
  simp [sentTo]

theorem mem_take_of_lt (hij : i < j) (h : sent[i]? = some a) : a ∈ sent.take j := by
  apply List.mem_of_getElem?
  rw [List.getElem?_take_of_lt hij]
  exact h

theorem eq_of_length_sentTo (hlength : (sentTo n sent).length = 1) (ha : sent[i]? = some a)
    (hb : sent[j]? = some b) (han : a.2 = n) (hbn : b.2 = n) : i = j := by
  have hnot {i j : Nat} {a b : LoweredEquation × Nat} (ha : sent[i]? = some a)
      (hb : sent[j]? = some b) (han : a.2 = n) (hbn : b.2 = n) : ¬ i < j := by
    intro hij
    subst hbn
    have hmem : a.1 ∈ sentTo b.2 (sent.take j) := by
      rw [mem_sentTo, ← han]
      exact mem_take_of_lt hij ha
    rw [sentTo_eq_of_getElem? hb, List.length_append, List.length_cons] at hlength
    have := List.length_pos_of_mem hmem
    omega
  rcases Nat.lt_trichotomy i j with hlt | heq | hgt
  · exact absurd hlt (hnot ha hb han hbn)
  · exact heq
  · exact absurd hgt (hnot hb ha hbn han)

theorem idxOf_eraseDups_sentTo (hij : i < j) (ha : sent[i]? = some a) (hb : sent[j]? = some b)
    (hpos : a.2 = b.2)
    (hkept : ∀ x ∈ sent.take j, x.2 = b.2 → x.1.equation ≠ b.1.equation) :
    ((sentTo b.2 sent).map (·.equation)).eraseDups.idxOf a.1.equation <
      ((sentTo b.2 sent).map (·.equation)).eraseDups.idxOf b.1.equation := by
  have hmem : a.1.equation ∈ (sentTo b.2 (sent.take j)).map (·.equation) := by
    apply List.mem_map_of_mem
    rw [mem_sentTo, ← hpos]
    exact mem_take_of_lt hij ha
  have hnot : b.1.equation ∉ (sentTo b.2 (sent.take j)).map (·.equation) := by
    intro hmem
    obtain ⟨x, hx, heq⟩ := List.mem_map.1 hmem
    exact hkept _ (mem_sentTo.1 hx) rfl heq
  rw [sentTo_eq_of_getElem? hb, List.map_append, List.eraseDups_append]
  rw [← List.mem_eraseDups] at hmem hnot
  rw [List.idxOf_append_of_mem hmem, List.idxOf_append_of_notMem hnot]
  have := List.idxOf_lt_length_of_mem hmem
  omega

theorem pairwise_idxOf_eraseDups {α : Type} [DecidableEq α] (ps : List (α × Nat)) (n : Nat) :
    ((ps.filter fun p => p.2 = n).map (·.1)).eraseDups.Pairwise fun a b =>
      ps.idxOf (a, n) < ps.idxOf (b, n) := by
  induction ps using List.reverseRecOn with
  | nil => exact .nil
  | append_singleton ps p ih =>
    obtain ⟨x, m⟩ := p
    have hmem {a : α} (ha : a ∈ ((ps.filter fun p => p.2 = n).map (·.1)).eraseDups) :
        (a, n) ∈ ps := by
      simpa using ha
    have hold : ((ps.filter fun p => p.2 = n).map (·.1)).eraseDups.Pairwise fun a b =>
        (ps ++ [(x, m)]).idxOf (a, n) < (ps ++ [(x, m)]).idxOf (b, n) := by
      apply ih.imp_of_mem
      intro a b ha hb hlt
      rw [List.idxOf_append_of_mem (hmem ha), List.idxOf_append_of_mem (hmem hb)]
      exact hlt
    rw [List.filter_append, List.map_append]
    by_cases hm : m = n
    · subst hm
      rw [List.filter_cons_of_pos (by simp), List.filter_nil, List.map_singleton, eraseDups_concat]
      split
      · exact hold
      · next hx =>
        rw [List.pairwise_append]
        refine ⟨hold, List.pairwise_singleton _ _, ?_⟩
        intro a ha b hb
        have hb' : (b, m) ∉ ps := by
          rw [List.mem_singleton.1 hb]
          simpa using hx
        rw [List.idxOf_append_of_mem (hmem ha), List.idxOf_append_of_notMem hb']
        have := List.idxOf_lt_length_of_mem (hmem ha)
        omega
    · rw [List.filter_cons_of_neg (by simpa using hm), List.filter_nil, List.map_nil,
        List.append_nil]
      exact hold

end Sent

/--
Fusion moves an equation before an earlier one only if there is no dependence between them. In one
cluster equations stay in program order.
-/
theorem unrelated_of_fused_before {es : List LoweredEquation} {clusters : List Cluster}
    (h : (ofProgram true es).run.value = .ok clusters) :
    ∃ positions, (destinations [] (es.map ofLowered)).run.value = .ok positions ∧
      positions.length = es.length ∧
      (∀ a ∈ es.zip positions, ∃ c, clusters[a.2]? = some c ∧ a.1.equation ∈ c.equations) ∧
      ∀ i j a b, i < j → (es.zip positions)[i]? = some a → (es.zip positions)[j]? = some b →
        (b.2 < a.2 → a.1.Unrelated b.1) ∧
        (a.2 = b.2 →
          (∀ x ∈ (es.zip positions).take j, x.2 = b.2 → x.1.equation ≠ b.1.equation) →
          ∀ c, clusters[b.2]? = some c →
            c.equations.idxOf a.1.equation < c.equations.idxOf b.1.equation) := by
  obtain ⟨positions, hpositions, hlength, hsent⟩ := exists_destinations h
  refine ⟨positions, hpositions, hlength, ?_, ?_⟩
  · intro a ha
    obtain ⟨c, hc, hgathers, hmem⟩ := hsent.exists_cluster ha
    exact ⟨c, hc, (mem_executed.1 (hgathers.mem_executed hmem)).1⟩
  · intro i j a b hij ha hb
    constructor
    · obtain ⟨hi, rfl⟩ := List.getElem?_eq_some_iff.1 ha
      obtain ⟨hj, rfl⟩ := List.getElem?_eq_some_iff.1 hb
      exact List.pairwise_iff_getElem.1 hsent.hoisted i j hi hj hij
    · intro hpos hkept c hc
      rw [(hsent.gathers b.2 c hc).equations]
      exact idxOf_eraseDups_sentTo hij ha hb hpos hkept

/-- The last equation joins the first one, past an equation of another space. -/
theorem unrelated_of_fused_before_hoisted :
    ∃ clusters a b,
      (ofProgram true (Equation.lowerAll hoisted .empty).value).run.value = .ok clusters ∧
      (destinations [] ((Equation.lowerAll hoisted .empty).value.map ofLowered)).run.value =
        .ok [0, 1, 0] ∧
      (Equation.lowerAll hoisted .empty).value[1]? = some a ∧
      (Equation.lowerAll hoisted .empty).value[2]? = some b ∧ a.Unrelated b := by
  have hsent : (destinations [] ((Equation.lowerAll hoisted .empty).value.map ofLowered)).run.value =
      .ok [0, 1, 0] := by
    decide +kernel
  have hresult : (ofProgram true (Equation.lowerAll hoisted .empty).value).run.value.map
      List.length = .ok 2 := by
    decide +kernel
  cases hfuse : (ofProgram true (Equation.lowerAll hoisted .empty).value).run.value with
  | error e =>
    rw [hfuse] at hresult
    cases hresult
  | ok clusters =>
    obtain ⟨positions, hpositions, -, -, hpairs⟩ := unrelated_of_fused_before hfuse
    obtain rfl := Except.ok.inj (hsent.symm.trans hpositions)
    refine ⟨clusters, _, _, rfl, hsent, rfl, rfl, ?_⟩
    exact (hpairs 1 2 _ _ (by decide) rfl rfl).1 (by decide)

/-- Clusters into which the equations of a program were put, each one at a position. -/
structure Partition (es : List LoweredEquation) (positions : List Nat)
    (clusters : List Cluster) : Prop where
  length : positions.length = es.length
  isMember : ∀ e n, (e, n) ∈ es.zip positions →
    ∃ c, clusters[n]? = some c ∧ e.equation ∈ c.equations
  isImage : ∀ (n : Nat) c, clusters[n]? = some c → ∀ eq ∈ c.equations,
    ∃ e, (e, n) ∈ es.zip positions ∧ e.equation = eq
  nodup : ∀ c ∈ clusters, c.equations.Nodup
  /-- The members of a cluster are in the order in which they are first put there. -/
  inOrder : ∀ (n : Nat) c, clusters[n]? = some c → c.equations.Pairwise fun eq eq' =>
    ((es.map (·.equation)).zip positions).idxOf (eq, n) <
      ((es.map (·.equation)).zip positions).idxOf (eq', n)
  iterationSpace : ∀ e n c, (e, n) ∈ es.zip positions → clusters[n]? = some c →
    e.iterationSpace = c.iterationSpace
  dataSpace : ∀ c ∈ clusters, c.dataSpace = .union (c.equations.map (·.dataSpace.value))
  guards : ∀ e n c, (e, n) ∈ es.zip positions → clusters[n]? = some c → c.guards = e.guards
  /-- A guarded equation shares its cluster with nothing. -/
  alone : ∀ (i : Nat) e n c, (es.zip positions)[i]? = some (e, n) → clusters[n]? = some c →
    e.guards.isEmpty = false → c.equations = [e.equation] ∧
      ∀ (j : Nat) e', (es.zip positions)[j]? = some (e', n) → j = i

namespace Distributed

variable {es : List LoweredEquation} {positions : List Nat} {clusters : List Cluster}
variable {sent : List (LoweredEquation × Nat)}

theorem mem_equations_iff (h : Distributed sent clusters) {n : Nat} {c : Cluster}
    (hc : clusters[n]? = some c) {eq : Equation} :
    eq ∈ c.equations ↔ ∃ e, (e, n) ∈ sent ∧ e.equation = eq := by
  rw [(h.gathers n c hc).equations, List.mem_eraseDups, List.mem_map]
  simp only [mem_sentTo]

theorem nodup_equations (h : Distributed sent clusters) {n : Nat} {c : Cluster}
    (hc : clusters[n]? = some c) : c.equations.Nodup := by
  rw [(h.gathers n c hc).equations]
  exact nodup_eraseDups _

theorem dataSpace_eq (h : Distributed sent clusters)
    (hlowered : ∀ a ∈ sent, a.1.dataSpace = a.1.equation.dataSpace.value) {n : Nat} {c : Cluster}
    (hc : clusters[n]? = some c) :
    c.dataSpace = .union (c.equations.map (·.dataSpace.value)) := by
  have hrecorded : ∀ e ∈ sentTo n sent, e.dataSpace.Recorded := by
    intro e he
    rw [hlowered _ (mem_sentTo.1 he)]
    exact e.equation.recorded_dataSpace
  rw [(h.gathers n c hc).dataSpace hrecorded]
  apply DataSpace.union_congr
  intro t
  rw [List.mem_map, List.mem_map]
  constructor
  · rintro ⟨e, he, rfl⟩
    have hmem := mem_sentTo.1 he
    exact ⟨e.equation, (h.mem_equations_iff hc).2 ⟨e, hmem, rfl⟩, (hlowered _ hmem).symm⟩
  · rintro ⟨eq, heq, rfl⟩
    obtain ⟨e, he, rfl⟩ := (h.mem_equations_iff hc).1 heq
    exact ⟨e, mem_sentTo.2 he, hlowered _ he⟩

theorem partition (h : Distributed (es.zip positions) clusters)
    (hlength : positions.length = es.length)
    (hlowered : ∀ e ∈ es, e.dataSpace = e.equation.dataSpace.value) :
    Partition es positions clusters where
  length := hlength
  isMember e n he := by
    obtain ⟨c, hc, -⟩ := h.exists_cluster he
    exact ⟨c, hc, (h.mem_equations_iff hc).2 ⟨e, he, rfl⟩⟩
  isImage n c hc eq heq := (h.mem_equations_iff hc).1 heq
  nodup c hc := by
    obtain ⟨n, hn⟩ := List.mem_iff_getElem?.1 hc
    exact h.nodup_equations hn
  inOrder n c hc := by
    have hsent : (sentTo n (es.zip positions)).map (·.equation) =
        ((((es.map (·.equation)).zip positions).filter fun p => p.2 = n).map (·.1)) := by
      unfold sentTo
      rw [List.zip_map_left, List.filter_map, List.map_map, List.map_map]
      rfl
    rw [(h.gathers n c hc).equations, hsent]
    exact pairwise_idxOf_eraseDups _ n
  iterationSpace e n c he hc := (h.gathers n c hc).iterationSpace e (mem_sentTo.2 he)
  dataSpace c hc := by
    obtain ⟨n, hn⟩ := List.mem_iff_getElem?.1 hc
    exact h.dataSpace_eq (fun a ha => hlowered a.1 (List.of_mem_zip ha).1) hn
  guards e n c he hc := ((h.gathers n c hc).guards e (mem_sentTo.2 he)).symm
  alone i e n c hi hc hguards := by
    have hgathers := h.gathers n c hc
    have he : e ∈ sentTo n (es.zip positions) := mem_sentTo.2 (List.mem_of_getElem? hi)
    have hone := hgathers.alone (hgathers.guards e he ▸ hguards)
    constructor
    · obtain ⟨x, hx⟩ := List.length_eq_one_iff.1 hone
      rw [hx, List.mem_singleton] at he
      rw [hgathers.equations, hx, ← he]
      rfl
    · intro j e' hj
      exact eq_of_length_sentTo hone hj hi rfl rfl

theorem perm_equations (h : Distributed (es.zip positions) clusters)
    (hlength : positions.length = es.length) (hnodup : (es.map (·.equation)).Nodup) :
    (clusters.flatMap (·.equations)).Perm (es.map (·.equation)) := by
  have hsent : ((es.zip positions).map fun a => a.1.equation) = es.map (·.equation) := by
    have hfst : (es.zip positions).map Prod.fst = es := List.map_fst_zip (by omega)
    conv_rhs => rw [← hfst, List.map_map]
    rfl
  -- Equal equations are the same one, so they went to the same position.
  have hunique {a b : LoweredEquation × Nat} (ha : a ∈ es.zip positions)
      (hb : b ∈ es.zip positions) (heq : a.1.equation = b.1.equation) : a = b :=
    List.inj_on_of_nodup_map (hsent ▸ hnodup) ha hb heq
  have hclusters : (clusters.flatMap (·.equations)).Nodup := by
    rw [List.nodup_flatMap]
    constructor
    · intro c hc
      obtain ⟨n, hn⟩ := List.mem_iff_getElem?.1 hc
      exact h.nodup_equations hn
    · rw [List.pairwise_iff_getElem]
      intro n m hn hm hnm eq heq heq'
      obtain ⟨e, he, rfl⟩ := (h.mem_equations_iff (List.getElem?_eq_getElem hn)).1 heq
      obtain ⟨e', he', heq'⟩ := (h.mem_equations_iff (List.getElem?_eq_getElem hm)).1 heq'
      exact Nat.ne_of_lt hnm (Prod.mk.inj (hunique he he' heq'.symm)).2
  rw [List.perm_ext_iff_of_nodup hclusters hnodup]
  intro eq
  rw [List.mem_flatMap, ← hsent, List.mem_map]
  constructor
  · rintro ⟨c, hc, heq⟩
    obtain ⟨n, hn⟩ := List.mem_iff_getElem?.1 hc
    obtain ⟨e, he, rfl⟩ := (h.mem_equations_iff hn).1 heq
    exact ⟨(e, n), he, rfl⟩
  · rintro ⟨a, ha, rfl⟩
    obtain ⟨c, hc, -⟩ := h.exists_cluster ha
    exact ⟨c, List.mem_of_getElem? hc, (h.mem_equations_iff hc).2 ⟨a.1, ha, rfl⟩⟩

end Distributed

/-- Fusion partitions a program by the spaces in which its equations are executed. -/
theorem partition_of_fused {eqs : List Equation} {directions : OrdMap Dimension Direction}
    {clusters : List Cluster}
    (h : (ofProgram true (Equation.lowerAll eqs directions).value).run.value = .ok clusters) :
    (Equation.lowerAll eqs directions).value.map (·.equation) = eqs ∧
    (∃ positions, Partition (Equation.lowerAll eqs directions).value positions clusters) ∧
    (eqs.Nodup → (clusters.flatMap (·.equations)).Perm eqs) := by
  obtain ⟨positions, -, hlength, hsent⟩ := exists_destinations h
  have hequations := Equation.map_equation_lowerAll eqs directions
  refine ⟨hequations, ⟨positions, ?_⟩, ?_⟩
  · exact hsent.partition hlength fun e he => Equation.dataSpace_of_mem_lowerAll he
  · intro hnodup
    rw [← hequations] at hnodup
    have hperm := hsent.perm_equations hlength hnodup
    rw [hequations] at hperm
    exact hperm

/-- The hoisted program, followed by `s[c] = 1` where `c` is every second `x`. -/
def hoistedGuarded : List Equation :=
  hoisted ++ [⟨.access (.declare "s" .dense [.conditional "c" (.space "x") 2] [.num 4]) [.sym "c"],
    .num 1, false⟩]

/-- The guarded equation gets a cluster of its own. -/
theorem partition_of_fused_hoistedGuarded :
    hoistedGuarded.Nodup ∧
      ∃ clusters,
        (ofProgram true (Equation.lowerAll hoistedGuarded .empty).value).run.value =
          .ok clusters ∧
        clusters.map (·.equations.length) = [2, 1, 1] ∧
        clusters.map (·.guards.isEmpty) = [true, true, false] ∧
        (∃ positions,
          Partition (Equation.lowerAll hoistedGuarded .empty).value positions clusters) ∧
        (clusters.flatMap (·.equations)).Perm hoistedGuarded := by
  have hnodup : hoistedGuarded.Nodup := by decide +kernel
  have hresult : (ofProgram true (Equation.lowerAll hoistedGuarded .empty).value).run.value.map
      (fun cs => (cs.map (·.equations.length), cs.map (·.guards.isEmpty))) =
        .ok ([2, 1, 1], [true, true, false]) := by
    decide +kernel
  cases hfuse : (ofProgram true (Equation.lowerAll hoistedGuarded .empty).value).run.value with
  | error e =>
    rw [hfuse] at hresult
    cases hresult
  | ok clusters =>
    rw [hfuse] at hresult
    obtain ⟨hlengths, hguards⟩ := Prod.mk.inj (Except.ok.inj hresult)
    obtain ⟨-, hpartition, hperm⟩ := partition_of_fused hfuse
    exact ⟨hnodup, clusters, rfl, hlengths, hguards, hpartition, hperm hnodup⟩

end Cluster

end Stencil
