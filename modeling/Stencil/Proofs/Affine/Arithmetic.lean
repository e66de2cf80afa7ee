import Mathlib.Algebra.Order.Monoid.WithTop
import Stencil.Proofs.Affine.RoundTrip
import Stencil.Proofs.Expr.Regroup

/-!
This module contains what the operations on expressions do to affine forms: sums have the sum of the
forms of their terms, the opposite of a canonical expression has the opposite form, and an
expression with a term that has no form has none itself. All of this is about the forms as they are
computed without bounds, whether or not they are in range.
-/

namespace Stencil

namespace Expr

theorem ofFactors_nil (c : Rat) : ofFactors c [] = num c := by
  by_cases hzero : c = 0
  · simp [ofFactors, hzero]
  · by_cases hone : c = 1
    · simp [ofFactors, sort, sortBy, hone]
    · simp [ofFactors, sort, sortBy, insertBy, hzero, hone]

theorem numbers_cons_num (q : Rat) (es : List Expr) :
    numbers (num q :: es) = q :: numbers es := rfl

theorem others_cons_num (q : Rat) (es : List Expr) : others (num q :: es) = others es := rfl

theorem isLE_cmp_num (c : Rat) {e : Expr} (h : e.isNumber = false) :
    (Expr.cmp (num c) e).isLE = true := by
  cases e with
  | num q => cases h
  | _ => rfl

theorem Canonical.ofFactors_factors {e : Expr} (he : e.Canonical) :
    ofFactors (numbers e.factors).prod (others e.factors) = e := by
  cases hproduct : e.isProduct with
  | true =>
    cases he with
    | @mul fs hfs h =>
      have hflat : fs.flatMap factors = fs := by
        rw [List.flatMap_congr fun f hf => factors_of_not_product (h.flat f hf),
          List.flatMap_singleton']
      have hvalue := (Canonical.mul hfs h).product_eq (.refl fs)
      rwa [value_product, hflat] at hvalue
    | _ => cases hproduct
  | false =>
    rw [factors_of_not_product hproduct]
    cases hnumber : e.isNumber with
    | true =>
      obtain ⟨q, rfl⟩ := isNumber_iff.1 hnumber
      have hprod : (numbers [Expr.num q]).prod = q := List.prod_singleton
      rw [hprod, others_cons_num]
      exact ofFactors_nil q
    | false =>
      rw [numbers, List.filterMap_cons_none (number?_eq_none hnumber), others,
        List.filter_cons_of_pos (by simp [hnumber])]
      simp [ofFactors, sort, sortBy, insertBy]

theorem Canonical.pairwise_factors {e : Expr} (he : e.Canonical) :
    e.factors.Pairwise fun a b => (Expr.cmp a b).isLE = true := by
  cases hproduct : e.isProduct with
  | true =>
    cases he with
    | mul _ h => exact h.sorted
    | _ => cases hproduct
  | false =>
    rw [factors_of_not_product hproduct]
    exact List.pairwise_singleton ..

theorem Canonical.prod_ne_zero {e : Expr} (he : e.Canonical) :
    (numbers e.factors).prod ≠ 0 ∨ others e.factors = [] := by
  cases hnumber : e.isNumber with
  | true =>
    obtain ⟨q, rfl⟩ := isNumber_iff.1 hnumber
    exact .inr rfl
  | false =>
    left
    have hfold := foldNumbers_mul_ne_zero one_ne_zero (he.zero_notMem_factors hnumber)
    rwa [value_foldNumbers Fraction.value_mul, ← List.prod_eq_foldl] at hfold

theorem value_neg (e : Expr) :
    (neg e).value = ofFactors (-(numbers e.factors).prod) (others e.factors) := by
  have hfactors : [num (-1), e].flatMap factors = num (-1) :: e.factors := by
    simp [factors]
  rw [neg, value_product, hfactors, numbers_cons_num, others_cons_num, List.prod_cons, neg_one_mul]

end Expr

namespace Affine

/-- The value of the affine form of an expression, and `⊤` if it has no form. -/
def formValue (ρ : String → Rat) (e : Expr) : WithTop Rat :=
  (ofExpr e).value.elim ⊤ fun a => (a.denote ρ : Rat)

theorem formValue_of_ofExpr {e : Expr} {a : Affine} (h : (ofExpr e).value = some a)
    (ρ : String → Rat) : formValue ρ e = (a.denote ρ : Rat) := by
  rw [formValue, h, Option.elim_some]

theorem formValue_eq_top_iff {ρ : String → Rat} {e : Expr} :
    formValue ρ e = ⊤ ↔ (ofExpr e).value = none := by
  unfold formValue
  cases (ofExpr e).value <;> simp

theorem ofExpr_of_formValue {e : Expr} {a : Affine} (ha : a.Reduced)
    (h : ∀ ρ : String → Int, formValue (fun s => ρ s) e = (a.denote fun s => (ρ s : Rat) : Rat)) :
    (ofExpr e).value = some a := by
  cases hform : (ofExpr e).value with
  | none =>
    have htop := h fun _ => 0
    rw [formValue_eq_top_iff.2 hform] at htop
    cases htop
  | some b =>
    congr 1
    apply ext_denote (reduced_ofExpr e hform) ha
    intro ρ
    have hρ := h ρ
    rw [formValue_of_ofExpr hform] at hρ
    exact WithTop.coe_injective hρ

theorem elim_ofSum (ρ : String → Rat) (acc : Affine) (es : List Expr) :
    ((ofSum acc es).value.elim ⊤ fun a => ((a.denote ρ : Rat) : WithTop Rat)) =
      (acc.denote ρ : Rat) + (es.map (formValue ρ)).sum := by
  induction es generalizing acc with
  | nil => simp [ofSum]
  | cons e es ih =>
    rw [ofSum, Checked.value_bind, List.map_cons, List.sum_cons]
    cases hform : (ofExpr e).value with
    | none => simp [formValue_eq_top_iff.2 hform]
    | some b =>
      dsimp only
      rw [Checked.value_bind, ih, formValue_of_ofExpr hform, denote_add, WithTop.coe_add, add_assoc]

theorem additive_formValue (ρ : String → Rat) : Expr.Additive (formValue ρ) where
  zero := by simp [formValue, ofExpr]
  number p q := by simp [formValue, ofExpr]
  add ts := by simp [formValue, ofExpr, elim_ofSum]

theorem formValue_pair (ρ : String → Rat) (x y : Expr) :
    formValue ρ (Expr.sum [x, y]).value = formValue ρ x + formValue ρ y := by
  rw [(additive_formValue ρ).sum]
  simp

theorem ofExpr_plus {x y : Expr} {a b : Affine} (hx : (ofExpr x).value = some a)
    (hy : (ofExpr y).value = some b) :
    (ofExpr (x.plus y).value).value = some (a.add b).value := by
  apply ofExpr_of_formValue (reduced_add (reduced_ofExpr x hx) b)
  intro ρ
  rw [Expr.plus, formValue_pair, formValue_of_ofExpr hx, formValue_of_ofExpr hy, denote_add,
    WithTop.coe_add]

theorem value_mul_of_isConstant {a : Affine} (ha : a.isConstant = true) (b : Affine) :
    (a.mul b).value = some (b.scale a.constant).value := by
  simp only [mul, toConstant?, ha, if_true, Checked.value_map]

theorem value_mul_of_not_isConstant {a : Affine} (ha : a.isConstant = false) (b : Affine) :
    (a.mul b).value = if b.isConstant then some (a.scale b.constant).value else none := by
  cases hb : b.isConstant with
  | true => simp [mul, toConstant?, ha, hb]
  | false => simp [mul, toConstant?, ha, hb]

theorem value_scale_one {a : Affine} (ha : a.Reduced) : (a.scale 1).value = a := by
  apply ext_coeff (reduced_scale ha 1) ha
  · simp
  · simp

theorem value_scale_ofConstant (c k : Rat) :
    ((ofConstant c).scale k).value = ofConstant (c * k) := by
  apply ext_coeff (reduced_scale (reduced_ofConstant c) k) (reduced_ofConstant _)
  · simp [ofConstant]
  · simp

theorem ofProduct_number (c q : Rat) (es : List Expr) :
    (ofProduct (ofConstant c) (.num q :: es)).value =
      (ofProduct (ofConstant (q * c)) es).value := by
  rw [ofProduct, Checked.value_bind, ofExpr, Checked.value_pure]
  dsimp only
  rw [Checked.value_bind, value_mul_of_isConstant rfl, value_scale_ofConstant]
  rfl

theorem ofProduct_singleton (c : Rat) (e : Expr) :
    (ofProduct (ofConstant c) [e]).value =
      (ofExpr e).value.map fun a => (a.scale c).value := by
  rw [ofProduct, Checked.value_bind]
  cases (ofExpr e).value with
  | none => rfl
  | some a =>
    dsimp only
    rw [Checked.value_bind, value_mul_of_isConstant rfl]
    rfl

theorem formValue_termToExpr (ρ : String → Rat) (e : String × Rat) :
    formValue ρ (termToExpr e) = (e.2 * ρ e.1 : Rat) := by
  unfold termToExpr
  split
  · next hone => simp [formValue, ofExpr, hone]
  · have hform : (ofExpr (.mul [.num e.2, .sym e.1])).value =
        some ((ofSymbol e.1).scale e.2).value := by
      rw [ofExpr, ofProduct_number, ofProduct_singleton, mul_one]
      rfl
    rw [formValue_of_ofExpr hform, denote_scale, denote_ofSymbol]
    simp [mul_comm]

theorem value_ofExpr_toExpr {a : Affine} (ha : a.Reduced) :
    (ofExpr a.toExpr.value).value = some a := by
  apply ofExpr_of_formValue ha
  intro ρ
  have hterms : ((a.terms.entries.map termToExpr).map (formValue fun s => (ρ s : Rat))).sum =
      ((a.terms.entries.map fun e => e.2 * (ρ e.1 : Rat)).sum : Rat) := by
    induction a.terms.entries with
    | nil => rfl
    | cons e es ih =>
      simp only [List.map_cons, List.sum_cons, WithTop.coe_add, ih, formValue_termToExpr]
  have hnumber (c : Rat) : formValue (fun s => (ρ s : Rat)) (.num c) = (c : Rat) := by
    simp [formValue, ofExpr]
  rw [toExpr, (additive_formValue _).sum, denote]
  split
  · rw [List.map_append, List.sum_append, hterms, add_comm]
    simp [hnumber]
  · next hzero =>
    rw [not_or, Decidable.not_not] at hzero
    rw [hterms, hzero.1]
    simp

theorem mul_scale {a b : Affine} (ha : a.Reduced) (hb : b.Reduced) {k : Rat} (hk : k ≠ 0) :
    ((a.scale k).value.mul b).value = (a.mul b).value.map fun c => (c.scale k).value := by
  have hconstant : (a.scale k).value.isConstant = a.isConstant := by
    rw [Bool.eq_iff_iff, isConstant_iff_coeff (reduced_scale ha k), isConstant_iff_coeff ha]
    simp [hk]
  cases hc : a.isConstant with
  | true =>
    rw [value_mul_of_isConstant (hconstant.trans hc), value_mul_of_isConstant hc, Option.map_some]
    congr 1
    apply ext_coeff (reduced_scale hb _) (reduced_scale (reduced_scale hb _) k)
    · simp [mul_assoc]
    · simp [mul_assoc]
  | false =>
    rw [value_mul_of_not_isConstant (hconstant.trans hc), value_mul_of_not_isConstant hc]
    split
    · rw [Option.map_some]
      congr 1
      apply ext_coeff (reduced_scale (reduced_scale ha k) _) (reduced_scale (reduced_scale ha _) k)
      · simp [mul_right_comm]
      · simp [mul_right_comm]
    · rfl

theorem ofProduct_scale {acc : Affine} (hacc : acc.Reduced) {k : Rat} (hk : k ≠ 0)
    (es : List Expr) :
    (ofProduct (acc.scale k).value es).value =
      (ofProduct acc es).value.map fun a => (a.scale k).value := by
  induction es generalizing acc with
  | nil => rfl
  | cons e es ih =>
    rw [ofProduct, ofProduct, Checked.value_bind, Checked.value_bind]
    cases hform : (ofExpr e).value with
    | none => rfl
    | some b =>
      dsimp only
      rw [Checked.value_bind, Checked.value_bind, mul_scale hacc (reduced_ofExpr e hform) hk]
      cases hmul : (acc.mul b).value with
      | none => rfl
      | some acc' => exact ih (reduced_mul hacc (reduced_ofExpr e hform) hmul)

theorem ofExpr_ofFactors {c : Rat} {fs : List Expr} (hc : c ≠ 0 ∨ fs = [])
    (hsorted : fs.Pairwise fun a b => (Expr.cmp a b).isLE = true)
    (hnot : ∀ f ∈ fs, f.isNumber = false) :
    (ofExpr (Expr.ofFactors c fs)).value = (ofProduct (ofConstant c) fs).value := by
  cases fs with
  | nil =>
    rw [Expr.ofFactors_nil]
    rfl
  | cons f fs =>
    rw [Expr.ofFactors_eq_assemble (hc.resolve_right (List.cons_ne_nil f fs)), Expr.withNumber]
    split
    · next hone =>
      rw [Expr.sort_eq_of_perm (.refl _) hsorted, hone]
      cases fs with
      | nil =>
        rw [ofProduct_singleton, Expr.assemble]
        cases hform : (ofExpr f).value with
        | none => rfl
        | some a => rw [Option.map_some, value_scale_one (reduced_ofExpr f hform)]
      | cons g gs => rfl
    · have hfirst : (.num c :: f :: fs).Pairwise fun a b => (Expr.cmp a b).isLE = true :=
        List.pairwise_cons.2 ⟨fun g hg => Expr.isLE_cmp_num c (hnot g hg), hsorted⟩
      have hsort : Expr.sort (f :: fs ++ [.num c]) = .num c :: f :: fs :=
        Expr.sort_eq_of_perm List.perm_append_comm hfirst
      rw [hsort, Expr.assemble, ofExpr, ofProduct_number, mul_one]
      · simp
      · simp

theorem ofExpr_neg {e : Expr} (he : e.Canonical) :
    (ofExpr (Expr.neg e).value).value = (ofExpr e).value.map fun a => a.neg.value := by
  have hzero := he.prod_ne_zero
  have hsorted : (Expr.others e.factors).Pairwise fun a b => (Expr.cmp a b).isLE = true :=
    he.pairwise_factors.filter _
  have hnot : ∀ f ∈ Expr.others e.factors, f.isNumber = false := fun f hf =>
    (Expr.mem_others.1 hf).2
  have hopposite : ofConstant (-(Expr.numbers e.factors).prod) =
      ((ofConstant (Expr.numbers e.factors).prod).scale (-1)).value := by
    rw [value_scale_ofConstant, mul_neg_one]
  conv_rhs => rw [← he.ofFactors_factors]
  rw [Expr.value_neg, ofExpr_ofFactors (hzero.imp_left neg_ne_zero.2) hsorted hnot,
    ofExpr_ofFactors hzero hsorted hnot, hopposite,
    ofProduct_scale (reduced_ofConstant _) (by norm_num)]
  rfl

-- In `x (1 - 1) y` the first two factors multiply to zero. The opposite puts `x` next to `y`.
example :
    let e := Expr.mul [.sym "x", .add [.num 1, .num (-1)], .sym "y"]
    (ofExpr e).value = some (ofConstant 0) ∧ (ofExpr (Expr.neg e).value).value = none := by
  decide +kernel

theorem ofExpr_minus_eq_none {x y : Expr} (hy : y.Canonical)
    (h : (ofExpr x).value = none ∨ (ofExpr y).value = none) :
    (ofExpr (x.minus y).value).value = none := by
  rw [← formValue_eq_top_iff (ρ := fun _ => 0), Expr.minus, Checked.value_bind, formValue_pair,
    WithTop.add_eq_top, formValue_eq_top_iff, formValue_eq_top_iff, ofExpr_neg hy]
  exact h.imp_right fun h => by rw [h, Option.map_none]

end Affine

namespace Expr

variable {x y : Expr} {a b : Affine}

theorem value_simplify (hx : (Affine.ofExpr x).value = some a) :
    x.simplify.value = a.toExpr.value := by
  simp only [simplify, Checked.value_bind, hx]

theorem value_difference (hx : (Affine.ofExpr x).value = some a)
    (hy : (Affine.ofExpr y).value = some b) :
    (x.difference y).value = (a.sub b).value.toExpr.value := by
  unfold difference
  split
  · next heq =>
    obtain rfl : a = b := Option.some.inj (hx.symm.trans (heq ▸ hy))
    rw [Affine.sub_self (Affine.reduced_ofExpr x hx), Affine.toExpr_of_isConstant rfl]
    rfl
  · simp only [Checked.value_bind, hx, hy]

theorem ofExpr_difference (hx : (Affine.ofExpr x).value = some a)
    (hy : (Affine.ofExpr y).value = some b) :
    (Affine.ofExpr (x.difference y).value).value = some (a.sub b).value := by
  rw [value_difference hx hy]
  exact Affine.value_ofExpr_toExpr (Affine.reduced_sub (Affine.reduced_ofExpr x hx) b)

end Expr

end Stencil
