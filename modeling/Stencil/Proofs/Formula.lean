import Stencil.Problem.Formula
import Stencil.Proofs.Analysis

/-!
This module contains the induction over the expressions that formulas stand for. What holds of
numbers and scalars and is kept by every operation holds of all of them.
-/

namespace Stencil

/--
A property of expressions that holds of numbers and scalars and that every operation keeps. Array
elements have an index along each dimension of their array, which is one with `F`.
-/
structure Expr.ClosedOver (F : GridFunction → Prop) (P : Expr → Prop) : Prop where
  num (q : Rat) : P (.num q)
  sym (s : String) : P (.sym s)
  access {f : GridFunction} (hf : F f) {is : List Expr}
    (hlength : is.length = f.dimensions.length) (his : ∀ i ∈ is, P i) : P (.access f is)
  sum {es : List Expr} (hes : ∀ e ∈ es, P e) : P (sum es).value
  product {es : List Expr} (hes : ∀ e ∈ es, P e) : P (product es).value
  neg {e : Expr} (he : P e) : P (neg e).value
  power {e : Expr} (he : P e) (n : Int) : P (power e n).value
  call (s : String) {as : List Expr} (has : ∀ a ∈ as, P a) : P (.call s as)

abbrev Expr.Closed (P : Expr → Prop) : Prop := ClosedOver (fun _ => True) P

theorem SymbolTable.function_eq_ok {t : SymbolTable} {name : String} {f : GridFunction} :
    t.function name = .ok f ↔ t.function? name = some f := by
  unfold function
  split
  · next h => rw [h, Except.ok.injEq, Option.some.injEq]
  · next h => rw [h]; simp

namespace Formula

variable {t : SymbolTable} {F : GridFunction → Prop} {P : Expr → Prop}

mutual

theorem of_toExpr_over (hF : ∀ name f, t.function? name = some f → F f)
    (hP : Expr.ClosedOver F P) (a : Formula) {e : Expr} (h : (toExpr t a).run.value = .ok e) :
    P e := by
  cases a with
  | int i =>
    obtain rfl := Except.ok.inj h
    exact hP.num i
  | float x =>
    rw [toExpr] at h
    split at h
    · next q _ =>
      obtain rfl := Except.ok.inj h
      exact hP.num q
    · cases h
  | name s =>
    obtain rfl := Except.ok.inj h
    exact hP.sym s
  | access f is =>
    rw [toExpr, Analysis.value_bind_eq_ok] at h
    obtain ⟨f, hf, h⟩ := h
    split at h
    · cases h
    · next hlength =>
      rw [Analysis.value_bind_eq_ok] at h
      obtain ⟨es, hes, h⟩ := h
      obtain rfl := Except.ok.inj h
      obtain ⟨hsame, hes⟩ := of_toExprs_over hF hP is hes
      exact hP.access (hF _ f (SymbolTable.function_eq_ok.1 hf))
        (hsame.trans (Decidable.not_not.1 hlength)) hes
  | add as =>
    rw [toExpr, Analysis.value_bind_eq_ok] at h
    obtain ⟨es, hes, h⟩ := h
    obtain rfl := Except.ok.inj h
    exact hP.sum (of_toExprs_over hF hP as hes).2
  | mul as =>
    rw [toExpr, Analysis.value_bind_eq_ok] at h
    obtain ⟨es, hes, h⟩ := h
    obtain rfl := Except.ok.inj h
    exact hP.product (of_toExprs_over hF hP as hes).2
  | neg a =>
    rw [toExpr, Analysis.value_bind_eq_ok] at h
    obtain ⟨e, he, h⟩ := h
    obtain rfl := Except.ok.inj h
    exact hP.neg (of_toExpr_over hF hP a he)
  | pow b n =>
    rw [toExpr, Analysis.value_bind_eq_ok] at h
    obtain ⟨e, he, h⟩ := h
    obtain rfl := Except.ok.inj h
    exact hP.power (of_toExpr_over hF hP b he) n
  | call s as =>
    rw [toExpr, Analysis.value_bind_eq_ok] at h
    obtain ⟨es, hes, h⟩ := h
    obtain rfl := Except.ok.inj h
    exact hP.call s (of_toExprs_over hF hP as hes).2

theorem of_toExprs_over (hF : ∀ name f, t.function? name = some f → F f)
    (hP : Expr.ClosedOver F P) (as : List Formula) {es : List Expr}
    (h : (toExprs t as).run.value = .ok es) : es.length = as.length ∧ ∀ e ∈ es, P e := by
  cases as with
  | nil =>
    obtain rfl := Except.ok.inj h
    simp
  | cons a as =>
    rw [toExprs, Analysis.value_bind_eq_ok] at h
    obtain ⟨e, he, h⟩ := h
    rw [Analysis.value_bind_eq_ok] at h
    obtain ⟨es', hes', h⟩ := h
    obtain rfl := Except.ok.inj h
    obtain ⟨hsame, hall⟩ := of_toExprs_over hF hP as hes'
    exact ⟨by simp [hsame], List.forall_mem_cons.2 ⟨of_toExpr_over hF hP a he, hall⟩⟩

end

theorem of_toExpr (hP : Expr.Closed P) (a : Formula) {e : Expr}
    (h : (toExpr t a).run.value = .ok e) : P e :=
  of_toExpr_over (fun _ _ _ => trivial) hP a h

end Formula

end Stencil
