import Stencil.Proofs.Expr.Within
import Stencil.Proofs.FlowGraph.TimeInvariant

/-!
This module contains the two directions of the flow of data. An equation reads what earlier ones
define and its value refers to, and it is read by the later ones that read it. The search for an
equation that depends on time goes from an equation to the first definitions of what it reads. These
come before it, also if something is defined several times, so every search ends.
-/

namespace Stencil

theorem Equation.refersTo_iff {eq : Equation} {lhs : Expr} :
    eq.refersTo lhs = true ↔ lhs.isAtom = true ∧ lhs.Within eq.rhs := by
  cases lhs <;> simp [refersTo, Expr.isAtom, Expr.mem_valueSymbols, Expr.mem_valueReferences,
    Reference.toExpr]

namespace FlowNode

@[simp]
theorem lhs_addReader (n : FlowNode) (reads : OrdSet Expr) (reader : Expr) :
    (n.addReader reads reader).lhs = n.lhs :=
  congrArg Equation.lhs (n.equation_addReader reads reader)

theorem mem_readBy_addReader {n : FlowNode} {reads : OrdSet Expr} {reader lhs : Expr} :
    lhs ∈ (n.addReader reads reader).readBy.toList ↔
      lhs ∈ n.readBy.toList ∨ n.lhs ∈ reads.toList ∧ reader = lhs := by
  rw [OrdSet.mem_toList (e := n.lhs)]
  unfold addReader
  split
  · next h =>
    rw [OrdSet.mem_toList, OrdSet.mem_toList, OrdMap.contains, OrdMap.find?_insert]
    by_cases heq : reader = lhs
    · simp [heq, h]
    · simp [heq, OrdMap.contains]
  · next h => simp [h]

end FlowNode

theorem exists_getElem?_concat {α : Type} {as : List α} {a : α} {i : Nat} {P : α → Prop} :
    (∃ j, i < j ∧ ∃ b, (as ++ [a])[j]? = some b ∧ P b) ↔
      (∃ j, i < j ∧ ∃ b, as[j]? = some b ∧ P b) ∨ i < as.length ∧ P a := by
  constructor
  · rintro ⟨j, hj, b, hb, hP⟩
    rw [List.getElem?_append] at hb
    split at hb
    · exact .inl ⟨j, hj, b, hb, hP⟩
    · rw [List.getElem?_singleton] at hb
      split at hb
      · obtain rfl := Option.some.inj hb
        exact .inr ⟨by omega, hP⟩
      · cases hb
  · rintro (⟨j, hj, b, hb, hP⟩ | ⟨hi, hP⟩)
    · have hlt := (List.getElem?_eq_some_iff.1 hb).1
      exact ⟨j, hj, b, by rwa [List.getElem?_append_left hlt], hP⟩
    · exact ⟨as.length, hi, a, by simp, hP⟩

namespace FlowGraph

variable {eqs : List Equation}

def NodeAt (eqs : List Equation) (k : Nat) (n : FlowNode) : Prop :=
  (ofEquations eqs).nodes[k]? = some n

theorem defines_iff {k : Nat} {l : Expr} :
    Defines eqs k l ↔ ∃ n, NodeAt eqs k n ∧ n.lhs = l := by
  unfold Defines NodeAt
  rw [← map_lhs_nodes, List.getElem?_map, Option.map_eq_some_iff]

theorem mem_readBy_iff {i : Nat} {n : FlowNode} (hn : NodeAt eqs i n) {lhs : Expr} :
    lhs ∈ n.readBy.toList ↔
      ∃ j, i < j ∧ ∃ eq, eqs[j]? = some eq ∧ eq.refersTo n.lhs = true ∧ eq.lhs = lhs := by
  unfold NodeAt at hn
  induction eqs using List.reverseRecOn generalizing n with
  | nil => simp [ofEquations, empty] at hn
  | append_singleton eqs eq ih =>
    rw [exists_getElem?_concat]
    rw [ofEquations_concat, push, List.getElem?_append] at hn
    simp only [List.length_map, length_nodes] at hn
    split at hn
    · next hi =>
      -- The new equation is noted at the old nodes that it reads.
      obtain ⟨n', hn', rfl⟩ := Option.map_eq_some_iff.1 (List.getElem?_map ▸ hn)
      have hlhs : n'.lhs ∈ (ofEquations eqs).nodes.map FlowNode.lhs :=
        List.mem_map_of_mem (List.mem_of_getElem? hn')
      rw [FlowNode.mem_readBy_addReader, ih hn', OrdSet.mem_toList_ofList, List.mem_filter,
        FlowNode.lhs_addReader]
      simp only [hlhs, hi, true_and]
    · next hi =>
      rw [List.getElem?_singleton] at hn
      split at hn
      · obtain rfl := Option.some.inj hn
        have hnone {j : Nat} (hj : i < j) : eqs[j]? = none := List.getElem?_eq_none (by omega)
        simp only [OrdSet.mem_toList, OrdMap.contains, OrdMap.find?_empty, hi, false_and, or_false]
        simp +contextual [hnone]
      · cases hn

def firstDefinitions (g : FlowGraph) (n : FlowNode) : List FlowNode :=
  n.reads.toList.filterMap fun l => g.nodes.find? (·.lhs == l)

/--
The search for an equation that depends on time, from a node on through the first definitions of
what is read. It does not go deeper than `depth`, and has no answer if this is not deep enough.
-/
def search (g : FlowGraph) (depth : Nat) (n : FlowNode) : Option Bool :=
  match depth with
  | 0 => none
  | depth + 1 =>
    if isTimeless g.timeIndices n.equation then
      (g.firstDefinitions n).allM (g.search depth)
    else
      some false

theorem exists_find?_nodes {k : Nat} {l : Expr} (h : Defines eqs k l) :
    ∃ i ≤ k, ∃ m, (ofEquations eqs).nodes.find? (·.lhs == l) = some m ∧
      NodeAt eqs i m ∧ Defines eqs i l ∧ ∀ k < i, ¬Defines eqs k l := by
  obtain ⟨n, hn, rfl⟩ := defines_iff.1 h
  cases hfind : (ofEquations eqs).nodes.find? (·.lhs == n.lhs) with
  | none => simpa using List.find?_eq_none.1 hfind n (List.mem_of_getElem? hn)
  | some m =>
    obtain ⟨hm, i, hi, rfl, hbefore⟩ := List.find?_eq_some_iff_getElem.1 hfind
    have hfirst : ∀ k < i, ¬Defines eqs k n.lhs := by
      intro k hk hdefines
      obtain ⟨n', hn', hlhs⟩ := defines_iff.1 hdefines
      obtain ⟨_, rfl⟩ := List.getElem?_eq_some_iff.1 hn'
      simpa [hlhs] using hbefore k hk
    have hat := List.getElem?_eq_getElem hi
    refine ⟨i, ?_, _, rfl, hat, ?_, hfirst⟩
    · exact Nat.le_of_not_lt fun hlt => hfirst k hlt h
    · exact defines_iff.2 ⟨_, hat, by simpa using hm⟩

theorem ReadsFirst.lt {i j : Nat} (h : ReadsFirst eqs j i) : i < j := by
  obtain ⟨l, hat, -⟩ := h
  exact hat.1

theorem ReadsFirst.exists_nodeAt {i j : Nat} (h : ReadsFirst eqs j i) : ∃ m, NodeAt eqs i m := by
  obtain ⟨l, hat, -⟩ := h
  obtain ⟨m, hm, -⟩ := defines_iff.1 hat.2.1
  exact ⟨m, hm⟩

theorem mem_firstDefinitions {j : Nat} {n m : FlowNode} (hn : NodeAt eqs j n) :
    m ∈ (ofEquations eqs).firstDefinitions n ↔ ∃ i, ReadsFirst eqs j i ∧ NodeAt eqs i m := by
  have hequation := getElem?_equation hn
  unfold firstDefinitions
  rw [List.mem_filterMap]
  constructor
  · rintro ⟨l, hl, hm⟩
    obtain ⟨hrefers, k, hk, hdefines⟩ := (mem_reads_iff hn).1 hl
    obtain ⟨i, hi, m', hm', hat, hdefines', hfirst⟩ := exists_find?_nodes hdefines
    obtain rfl := Option.some.inj (hm'.symm.trans hm)
    exact ⟨i, ⟨l, ⟨by omega, hdefines', _, hequation, hrefers⟩, hfirst⟩, hat⟩
  · rintro ⟨i, ⟨l, ⟨hi, hdefines, eq, heq, hrefers⟩, hfirst⟩, hat⟩
    obtain rfl := Option.some.inj (hequation.symm.trans heq)
    obtain ⟨i', hi', m', hm', hat', hdefines', -⟩ := exists_find?_nodes hdefines
    obtain rfl : i' = i := by
      apply Nat.le_antisymm hi'
      exact Nat.le_of_not_lt fun hlt => hfirst i' hlt hdefines'
    obtain rfl := Option.some.inj (hat'.symm.trans hat)
    exact ⟨l, (mem_reads_iff hn).2 ⟨hrefers, i', hi, hdefines⟩, hm'⟩

theorem exists_allM_eq_some {α : Type} {p : α → Option Bool} {Q : α → Prop} {as : List α}
    (h : ∀ a ∈ as, ∃ b, p a = some b ∧ (b = true ↔ Q a)) :
    ∃ b, as.allM p = some b ∧ (b = true ↔ ∀ a ∈ as, Q a) := by
  induction as with
  | nil => exact ⟨true, rfl, by simp⟩
  | cons a as ih =>
    rw [List.forall_mem_cons] at h
    obtain ⟨⟨b, hb, hQ⟩, hrest⟩ := h
    obtain ⟨c, hc, hall⟩ := ih hrest
    rw [List.allM, hb, List.forall_mem_cons, ← hQ, ← hall]
    cases b with
    | true => exact ⟨c, hc, by simp⟩
    | false => exact ⟨false, rfl, by simp⟩

theorem exists_search_eq_some {j : Nat} {n : FlowNode} (hn : NodeAt eqs j n) {depth : Nat}
    (hdepth : j < depth) :
    ∃ b, (ofEquations eqs).search depth n = some b ∧ (b = true ↔ Steady eqs j) := by
  induction depth generalizing j n with
  | zero => cases hdepth
  | succ depth ih =>
    have hequation := getElem?_equation hn
    have hself : (∀ eq, eqs[j]? = some eq → ¬eq.AccessesTime ∧ ¬eq.NamesTime eqs) ↔
        isTimeless (ofEquations eqs).timeIndices n.equation = true := by
      rw [isTimeless_iff, hequation]
      simp
    have hanswers : ∀ m ∈ (ofEquations eqs).firstDefinitions n,
        ∃ b, (ofEquations eqs).search depth m = some b ∧
          (b = true ↔ ∀ i, ReadsFirst eqs j i → NodeAt eqs i m → Steady eqs i) := by
      intro m hm
      obtain ⟨i, hreads, hat⟩ := (mem_firstDefinitions hn).1 hm
      have hlt {i : Nat} (h : ReadsFirst eqs j i) : i < depth :=
        Nat.lt_of_lt_of_le h.lt (Nat.le_of_lt_succ hdepth)
      obtain ⟨b, hb, hsteady⟩ := ih hat (hlt hreads)
      refine ⟨b, hb, ?_⟩
      rw [hsteady]
      constructor
      · -- Nodes that are the same at two positions have one answer.
        intro hi i' hreads' hat'
        obtain ⟨b', hb', hsteady'⟩ := ih hat' (hlt hreads')
        obtain rfl := Option.some.inj (hb.symm.trans hb')
        exact hsteady'.1 (hsteady.2 hi)
      · exact fun h => h i hreads hat
    obtain ⟨b, hb, hall⟩ := exists_allM_eq_some hanswers
    have hreads : b = true ↔ ∀ i, ReadsFirst eqs j i → Steady eqs i := by
      rw [hall]
      constructor
      · intro h i hi
        obtain ⟨m, hm⟩ := hi.exists_nodeAt
        exact h m ((mem_firstDefinitions hn).2 ⟨i, hi, hm⟩) i hi hm
      · exact fun h m _ i hi _ => h i hi
    rw [search, steady_iff, hself, ← hreads]
    cases isTimeless (ofEquations eqs).timeIndices n.equation with
    | true => exact ⟨b, hb, by simp⟩
    | false => exact ⟨false, rfl, by simp⟩

theorem search_eq_some {j : Nat} {n : FlowNode} (hn : NodeAt eqs j n) {depth : Nat}
    (hdepth : j < depth) :
    ∃ b, (ofEquations eqs).search depth n = some b ∧
      (ofEquations eqs).invariances[j]? = some (n.lhs, b) := by
  obtain ⟨b, hb, hsteady⟩ := exists_search_eq_some hn hdepth
  obtain ⟨hjudged, hlength⟩ := judged_invariances eqs
  have hj : j < (ofEquations eqs).invariances.length := by
    rw [hlength, ← length_nodes]
    exact (List.getElem?_eq_some_iff.1 hn).1
  have hat := List.getElem?_eq_getElem hj
  have hlhs := (hjudged.lhs j hj n.lhs).1 (defines_iff.2 ⟨n, hn, rfl⟩)
  rw [List.getElem?_map, hat, Option.map_some, Option.some_inj] at hlhs
  have hverdict := (hjudged.steady j _ hat).trans hsteady.symm
  refine ⟨b, hb, hat.trans (congrArg some (Prod.ext hlhs ?_))⟩
  exact Bool.eq_iff_iff.2 hverdict

theorem mem_reads_iff_refersTo {i j : Nat} {m n : FlowNode} (hij : i < j) (hm : NodeAt eqs i m)
    (hn : NodeAt eqs j n) : m.lhs ∈ n.reads.toList ↔ n.equation.refersTo m.lhs = true := by
  rw [mem_reads_iff hn]
  exact and_iff_left ⟨i, hij, defines_iff.2 ⟨m, hm, rfl⟩⟩

/--
Reading and being read are two sides of the same thing. A node reads exactly the earlier left-hand
sides that its value refers to, and is then among the readers of all nodes that define them; nothing
else is read, and nothing else is a reader. The search for an equation that depends on time ends
from every node of every program, since it goes to earlier nodes only.
-/
theorem reads_readBy_dual (eqs : List Equation) :
    (ofEquations eqs).equations = eqs ∧
      (∀ i j m n, i < j → NodeAt eqs i m → NodeAt eqs j n →
        (m.lhs ∈ n.reads.toList ↔ m.lhs.isAtom = true ∧ m.lhs.Within n.equation.rhs) ∧
          (m.lhs ∈ n.reads.toList → n.lhs ∈ m.readBy.toList)) ∧
      (∀ j n, NodeAt eqs j n → ∀ l ∈ n.reads.toList, ∃ i < j, ∃ m, NodeAt eqs i m ∧ m.lhs = l) ∧
      (∀ i m, NodeAt eqs i m → ∀ l ∈ m.readBy.toList,
        ∃ j > i, ∃ n, NodeAt eqs j n ∧ n.lhs = l ∧ m.lhs ∈ n.reads.toList) ∧
      (∀ j n, NodeAt eqs j n → ∀ m ∈ (ofEquations eqs).firstDefinitions n,
        ∃ i < j, NodeAt eqs i m) ∧
      ∀ j n, NodeAt eqs j n → ∀ depth > j, ∃ b, (ofEquations eqs).search depth n = some b ∧
        (ofEquations eqs).invariances[j]? = some (n.lhs, b) := by
  refine ⟨map_equation_nodes eqs, ?_, ?_, ?_, ?_, ?_⟩
  · intro i j m n hij hm hn
    rw [mem_reads_iff_refersTo hij hm hn, ← Equation.refersTo_iff]
    refine ⟨Iff.rfl, fun hrefers => ?_⟩
    exact (mem_readBy_iff hm).2 ⟨j, hij, _, getElem?_equation hn, hrefers, rfl⟩
  · intro j n hn l hl
    obtain ⟨-, i, hi, hdefines⟩ := (mem_reads_iff hn).1 hl
    exact ⟨i, hi, defines_iff.1 hdefines⟩
  · intro i m hm l hl
    obtain ⟨j, hij, eq, heq, hrefers, rfl⟩ := (mem_readBy_iff hm).1 hl
    rw [← map_equation_nodes eqs, List.getElem?_map] at heq
    obtain ⟨n, hn, rfl⟩ := Option.map_eq_some_iff.1 heq
    exact ⟨j, hij, n, hn, rfl, (mem_reads_iff_refersTo hij hm hn).2 hrefers⟩
  · intro j n hn m hm
    obtain ⟨i, hreads, hi⟩ := (mem_firstDefinitions hn).1 hm
    exact ⟨i, hreads.lt, hi⟩
  · exact fun j n hn depth hdepth => search_eq_some hn hdepth

/-- The equations `s = m[x]; s = s + 1; v[x] = s`. -/
def incremented : List Equation :=
  [⟨.sym "s", constantAt, false⟩, ⟨.sym "s", .add [.num 1, .sym "s"], false⟩,
    ⟨resultAt, .sym "s", false⟩]

theorem reads_readBy_dual_incremented :
    ∃ m n, NodeAt incremented 0 m ∧ NodeAt incremented 1 n ∧ m.lhs = n.lhs ∧
      m.lhs ∈ n.reads.toList ∧ n.lhs ∈ m.readBy.toList ∧
      ∃ b, (ofEquations incremented).search 2 n = some b := by
  have hfirst : Defines incremented 0 (.sym "s") := rfl
  have hsecond : Defines incremented 1 (.sym "s") := rfl
  obtain ⟨m, hm, hlhs⟩ := defines_iff.1 hfirst
  obtain ⟨n, hn, hlhs'⟩ := defines_iff.1 hsecond
  obtain ⟨-, hdual, -, -, -, hsearch⟩ := reads_readBy_dual incremented
  obtain ⟨hreads, hreadBy⟩ := hdual 0 1 m n Nat.zero_lt_one hm hn
  have hequation : ⟨.sym "s", .add [.num 1, .sym "s"], false⟩ = n.equation :=
    Option.some.inj (getElem?_equation hn)
  have hmem : m.lhs ∈ n.reads.toList := by
    rw [hreads, hlhs, ← hequation]
    exact ⟨rfl, .arg (List.mem_cons_of_mem _ (List.mem_cons_self ..)) .self⟩
  obtain ⟨b, hb, -⟩ := hsearch 1 n hn 2 (Nat.lt_succ_self 1)
  exact ⟨m, n, hm, hn, hlhs.trans hlhs'.symm, hmem, hreadBy hmem, b, hb⟩

end FlowGraph

end Stencil
