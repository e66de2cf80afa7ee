import Stencil.Proofs.Affine.Denote

/-!
This module contains when a sum or an affine form is a literal: exactly if it has no terms besides
numbers.
-/

namespace Stencil

namespace Expr

theorem toInt?_eq_none {e : Expr} (h : e.isNumber = false) : e.toInt? = none := by
  cases e <;> simp_all [isNumber, toInt?]

theorem isNumber_ofTerms (c : Rat) {t : Expr} {ts : List Expr} (hmem : t ∈ ts)
    (hnot : ∀ t ∈ ts, t.isNumber = false) : (ofTerms c ts).isNumber = false := by
  have hperm := sort_perm (if c = 0 then ts else ts ++ [num c])
  unfold ofTerms
  split
  · next hnil =>
    rw [hnil] at hperm
    split at hperm
    · rw [List.nil_perm.1 hperm] at hmem
      cases hmem
    · simp at hperm
  · next u hsingle =>
    rw [hsingle] at hperm
    split at hperm
    · exact hnot u (hperm.subset (by simp))
    · -- There is a term besides the number, so two of them do not fit into one.
      have hlength := hperm.length_eq
      have hpos := List.length_pos_of_mem hmem
      simp only [List.length_append, List.length_cons, List.length_nil] at hlength
      omega
  · rfl

theorem isNumber_sum {es : List Expr} {t : Expr} (hmem : t ∈ es.flatMap terms)
    (hnot : t.isNumber = false) : (sum es).value.isNumber = false := by
  simp only [sum, Checked.value_bind, Checked.value_pure]
  apply isNumber_ofTerms (t := t)
  · rw [List.mem_filter]
    exact ⟨hmem, by simp [hnot]⟩
  · intro u hu
    rw [List.mem_filter] at hu
    simpa using hu.2

theorem ofTerms_nil (c : Rat) : ofTerms c [] = num c := by
  by_cases hc : c = 0
  · simp [ofTerms, sort, sortBy, hc]
  · simp [ofTerms, sort, sortBy, insertBy, hc]

end Expr

namespace Affine

theorem toExpr_of_isConstant {a : Affine} (h : a.isConstant = true) :
    a.toExpr.value = .num a.constant := by
  unfold isConstant OrdMap.isEmpty at h
  rw [List.isEmpty_iff] at h
  unfold toExpr
  simp [h, Expr.sum, Expr.terms, Expr.foldNumbers, Expr.isNumber, Expr.ofTerms_nil]

theorem isNumber_termToExpr (e : String × Rat) : (termToExpr e).isNumber = false := by
  unfold termToExpr
  split <;> rfl

theorem terms_termToExpr (e : String × Rat) : (termToExpr e).terms = [termToExpr e] := by
  unfold termToExpr
  split <;> rfl

theorem isNumber_toExpr {a : Affine} (h : a.isConstant = false) :
    a.toExpr.value.isNumber = false := by
  unfold isConstant OrdMap.isEmpty at h
  unfold toExpr
  obtain ⟨e, es, hentries⟩ := List.exists_cons_of_ne_nil (List.isEmpty_eq_false_iff.1 h)
  apply Expr.isNumber_sum (t := termToExpr e) _ (isNumber_termToExpr e)
  rw [List.mem_flatMap]
  refine ⟨termToExpr e, ?_, by simp [terms_termToExpr]⟩
  split <;> simp [hentries]

theorem toInt?_toExpr (a : Affine) : a.toExpr.value.toInt? = a.toInt? := by
  unfold toInt? toConstant?
  cases h : a.isConstant with
  | true => simp [toExpr_of_isConstant h, Expr.toInt?]
  | false => simp [Expr.toInt?_eq_none (isNumber_toExpr h)]

end Affine

end Stencil
