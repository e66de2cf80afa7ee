import Stencil.Problem.Basic
import Stencil.Proofs.Expr.References
import Stencil.Proofs.Formula
import Stencil.Proofs.Scope.Total
import Stencil.Proofs.Temporaries.Eliminate

/-!
This module contains how a problem that has been loaded comes about, and what is known about its
equations: every array element has an index along each dimension of its array.
-/

namespace Stencil

theorem Expr.closedOver_references {F : GridFunction → Prop} {Q : Reference → Prop}
    (h : ∀ f is, F f → is.length = f.dimensions.length → Q ⟨f, is⟩) :
    ClosedOver F fun e => ∀ r ∈ e.references, Q r := by
  have hlist {es : List Expr} (hes : ∀ e ∈ es, ∀ r ∈ e.references, Q r) :
      ∀ r ∈ referencesOfList es, Q r := by
    intro r hr
    obtain ⟨e, he, hr⟩ := mem_referencesOfList.1 hr
    exact hes e he r hr
  exact {
    num := fun q r hr => by cases hr
    sym := fun s r hr => by cases hr
    access := fun hf is hlength his => by
      rw [references, List.forall_mem_cons]
      exact ⟨h _ _ hf hlength, hlist his⟩
    sum := fun hes r hr => by
      obtain ⟨e, he, hr⟩ := mem_references_sum hr
      exact hes e he r hr
    product := fun hes r hr => by
      obtain ⟨e, he, hr⟩ := mem_references_product hr
      exact hes e he r hr
    neg := fun he r hr => he r (mem_references_neg hr)
    power := fun he n r hr => he r (mem_references_power hr)
    call := fun s as has => hlist has }

theorem Formula.complete_toExpr {t : SymbolTable} (a : Formula) {e : Expr}
    (h : (toExpr t a).run.value = .ok e) : ∀ r ∈ e.references, r.Complete :=
  of_toExpr_over (F := fun _ => True) (fun _ _ _ => trivial)
    (Expr.closedOver_references fun _ _ _ hlength => hlength) a h

theorem EquationEntry.of_resolve {t : SymbolTable} {entry : EquationEntry} {eq : Equation}
    (h : (entry.resolve t).run.value = .ok eq) :
    (entry.lhs.toExpr t).run.value = .ok eq.lhs ∧ (entry.rhs.toExpr t).run.value = .ok eq.rhs ∧
      ((∃ f is, eq.lhs = .access f is) ∨ ∃ s, eq.lhs = .sym s) := by
  unfold resolve at h
  rw [Analysis.value_bind_eq_ok] at h
  obtain ⟨lhs, hlhs, h⟩ := h
  split at h
  · rw [Analysis.value_bind_eq_ok] at h
    obtain ⟨_, -, h⟩ := h
    cases h
  · next hassignable =>
    rw [Analysis.value_bind_eq_ok] at h
    obtain ⟨rhs, hrhs, h⟩ := h
    obtain rfl := Except.ok.inj h
    refine ⟨hlhs, hrhs, ?_⟩
    cases lhs with
    | access f is => exact .inl ⟨f, is, rfl⟩
    | sym s => exact .inr ⟨s, rfl⟩
    | _ => exact absurd rfl hassignable

theorem ProblemFile.of_resolve {file : ProblemFile} {p : Problem}
    (h : file.resolve.run.value = .ok p) :
    ∃ t, declareDimensions .empty file.dimensions = .ok t ∧
      (declareFunctions p.grid t file.functions).run.value = .ok p.table ∧
      List.Forall₂ (fun entry eq => (EquationEntry.resolve p.table entry).run.value = .ok eq)
        file.equations p.equations ∧
      ∃ ds, List.Forall₂ (fun e d => p.table.dimension e.1 = .ok d.1 ∧ d.2 = e.2)
        file.directions.entries ds ∧ p.directions = .ofList ds := by
  unfold resolve at h
  rw [Analysis.value_bind_eq_ok] at h
  obtain ⟨t, ht, h⟩ := h
  rw [Analysis.value_bind_eq_ok] at h
  obtain ⟨grid, -, h⟩ := h
  rw [Analysis.value_bind_eq_ok] at h
  obtain ⟨table, htable, h⟩ := h
  rw [Analysis.value_bind_eq_ok] at h
  obtain ⟨equations, hequations, h⟩ := h
  rw [Analysis.value_bind_eq_ok] at h
  obtain ⟨directions, hdirections, h⟩ := h
  obtain rfl := Except.ok.inj h
  rw [Analysis.value_mapM_eq_ok] at hequations hdirections
  refine ⟨t, ht, htable, hequations, directions, hdirections.imp ?_, rfl⟩
  rintro e d hd
  rw [Analysis.value_bind_eq_ok] at hd
  obtain ⟨dimension, hdimension, hd⟩ := hd
  obtain rfl := Except.ok.inj hd
  exact ⟨hdimension, rfl⟩

theorem ProblemFile.complete_resolve {file : ProblemFile} {p : Problem}
    (h : file.resolve.run.value = .ok p) :
    ∀ eq ∈ p.equations, eq.AllReferences Reference.Complete := by
  obtain ⟨-, -, -, hequations, -⟩ := ProblemFile.of_resolve h
  intro eq heq
  obtain ⟨entry, -, hentry⟩ := exists_mem_left hequations heq
  obtain ⟨hlhs, hrhs, -⟩ := EquationEntry.of_resolve hentry
  exact List.forall_mem_append.2
    ⟨Formula.complete_toExpr _ hlhs, Formula.complete_toExpr _ hrhs⟩

end Stencil
