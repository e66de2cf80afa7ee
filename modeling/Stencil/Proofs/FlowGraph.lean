import Stencil.FlowGraph
import Stencil.Proofs.Loops

/-!
This module contains the nodes of the graph of a program. There is one for each equation, in order,
and it reads the left-hand sides of earlier equations that its value refers to.
-/

namespace Stencil

namespace OrdSet

theorem mem_toList {s : OrdSet Expr} {e : Expr} : e ∈ s.toList ↔ OrdMap.contains s e = true := by
  rw [toList, OrdMap.mem_keys, OrdMap.contains, Option.isSome_iff_exists]

theorem mem_toList_ofList {es : List Expr} {e : Expr} : e ∈ (ofList es).toList ↔ e ∈ es := by
  rw [mem_toList, contains_ofList, decide_eq_true_iff]

end OrdSet

namespace FlowNode

@[simp]
theorem equation_addReader (n : FlowNode) (reads : OrdSet Expr) (reader : Expr) :
    (n.addReader reads reader).equation = n.equation := by
  unfold addReader
  split <;> rfl

@[simp]
theorem reads_addReader (n : FlowNode) (reads : OrdSet Expr) (reader : Expr) :
    (n.addReader reads reader).reads = n.reads := by
  unfold addReader
  split <;> rfl

end FlowNode

namespace FlowGraph

theorem ofEquations_concat (eqs : List Equation) (eq : Equation) :
    ofEquations (eqs ++ [eq]) = (ofEquations eqs).push eq := by
  simp [ofEquations]

theorem map_equation_nodes (eqs : List Equation) :
    (ofEquations eqs).nodes.map (·.equation) = eqs := by
  induction eqs using List.reverseRecOn with
  | nil => rfl
  | append_singleton eqs eq ih =>
    rw [ofEquations_concat, push, List.map_append, List.map_map]
    congr 1
    calc (ofEquations eqs).nodes.map _ = (ofEquations eqs).nodes.map (·.equation) :=
          List.map_congr_left fun n _ => n.equation_addReader _ _
      _ = eqs := ih

theorem map_lhs_nodes (eqs : List Equation) :
    (ofEquations eqs).nodes.map FlowNode.lhs = eqs.map Equation.lhs := by
  nth_rewrite 2 [← map_equation_nodes eqs]
  rw [List.map_map]
  rfl

theorem length_nodes (eqs : List Equation) : (ofEquations eqs).nodes.length = eqs.length := by
  rw [← List.length_map (f := FlowNode.equation), map_equation_nodes]

theorem getElem?_equation {eqs : List Equation} {j : Nat} {n : FlowNode}
    (hn : (ofEquations eqs).nodes[j]? = some n) : eqs[j]? = some n.equation := by
  rw [← map_equation_nodes eqs, List.getElem?_map, hn, Option.map_some]

def Defines (eqs : List Equation) (k : Nat) (lhs : Expr) : Prop :=
  (eqs.map Equation.lhs)[k]? = some lhs

theorem mem_reads_iff {eqs : List Equation} {j : Nat} {n : FlowNode}
    (hn : (ofEquations eqs).nodes[j]? = some n) {lhs : Expr} :
    lhs ∈ n.reads.toList ↔
      n.equation.refersTo lhs = true ∧ ∃ i < j, Defines eqs i lhs := by
  induction eqs using List.reverseRecOn generalizing n with
  | nil => simp [ofEquations, empty] at hn
  | append_singleton eqs eq ih =>
    have hearlier {i : Nat} (hi : i < eqs.length) :
        Defines (eqs ++ [eq]) i lhs ↔ Defines eqs i lhs := by
      unfold Defines
      rw [List.map_append, List.getElem?_append_left (by simpa using hi)]
    rw [ofEquations_concat, push, List.getElem?_append] at hn
    simp only [List.length_map, length_nodes] at hn
    split at hn
    · next hj =>
      obtain ⟨n', hn', rfl⟩ := Option.map_eq_some_iff.1 (List.getElem?_map ▸ hn)
      rw [FlowNode.reads_addReader, FlowNode.equation_addReader, ih hn']
      refine and_congr_right fun _ => exists_congr fun i => and_congr_right fun hi => ?_
      exact (hearlier (by omega)).symm
    · next hj =>
      rw [List.getElem?_singleton] at hn
      split at hn
      · next hlast =>
        obtain rfl : j = eqs.length := by omega
        obtain rfl := Option.some.inj hn
        simp only [map_lhs_nodes]
        rw [OrdSet.mem_toList_ofList, List.mem_filter, and_comm, List.mem_iff_getElem?]
        apply and_congr_right
        intro _
        constructor
        · rintro ⟨i, hi⟩
          have hlt : i < eqs.length := by
            simpa using (List.getElem?_eq_some_iff.1 hi).1
          exact ⟨i, hlt, (hearlier hlt).2 hi⟩
        · rintro ⟨i, hi, hdefines⟩
          exact ⟨i, (hearlier hi).1 hdefines⟩
      · cases hn

end FlowGraph

end Stencil
