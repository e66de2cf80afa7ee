import Stencil.Proofs.Expr.Literal

/-!
This module contains canonical expressions, the ones that the operations build, and how differences
of them behave when their operands are swapped. On canonical expressions a difference that is not
affine is never a literal, so the difference and its opposite are literals together.
-/

namespace Stencil

namespace Expr

def isSum : Expr → Bool
  | add _ => true
  | _ => false

def isProduct : Expr → Bool
  | mul _ => true
  | _ => false

/--
The arguments of a sum or a product: at least two, in order, none of them an operation of the same
kind, and at most one number, which is none of the `trivial` ones.
-/
structure Arguments (nested : Expr → Bool) (trivial : List Rat) (es : List Expr) : Prop where
  two_le : 2 ≤ es.length
  sorted : es.Pairwise fun a b => (Expr.cmp a b).isLE = true
  flat : ∀ e ∈ es, nested e = false
  numbers_le : (es.filter isNumber).length ≤ 1
  nontrivial : ∀ q ∈ trivial, num q ∉ es

/-- Sums, products and powers are in normal form at every depth. -/
inductive Canonical : Expr → Prop
  | num (q : Rat) : Canonical (num q)
  | sym (s : String) : Canonical (sym s)
  | access (f : GridFunction) {is : List Expr} (his : ∀ i ∈ is, Canonical i) :
    Canonical (access f is)
  | add {ts : List Expr} (hts : ∀ t ∈ ts, Canonical t) (h : Arguments isSum [0] ts) :
    Canonical (add ts)
  | mul {fs : List Expr} (hfs : ∀ f ∈ fs, Canonical f) (h : Arguments isProduct [0, 1] fs) :
    Canonical (mul fs)
  | pow {b : Expr} {n : Int} (hb : Canonical b) (hn : n ≠ 0 ∧ n ≠ 1)
    (hnum : ∀ q, b = .num q → q = 0 ∧ n < 0) : Canonical (pow b n)
  | call (s : String) {as : List Expr} (has : ∀ a ∈ as, Canonical a) : Canonical (call s as)

theorem Arguments.exists_not_number {nested : Expr → Bool} {trivial : List Rat} {es : List Expr}
    (h : Arguments nested trivial es) : ∃ e ∈ es, e.isNumber = false := by
  apply Classical.byContradiction
  intro hnone
  have hall : es.filter isNumber = es := by
    rw [List.filter_eq_self]
    intro e he
    cases hnum : e.isNumber with
    | true => rfl
    | false => exact absurd ⟨e, he, hnum⟩ hnone
  have hle := h.numbers_le
  have htwo := h.two_le
  rw [hall] at hle
  omega

theorem Canonical.exists_term {e : Expr} (h : e.Canonical) (hnum : e.isNumber = false) :
    ∃ t ∈ e.terms, t.isNumber = false := by
  cases h with
  | add _ hts => exact hts.exists_not_number
  | num q => cases hnum
  | _ => exact ⟨_, List.mem_singleton_self _, rfl⟩

theorem Canonical.exists_factor {e : Expr} (h : e.Canonical) (hnum : e.isNumber = false) :
    ∃ f ∈ e.factors, f.isNumber = false := by
  cases h with
  | mul _ hfs => exact hfs.exists_not_number
  | num q => cases hnum
  | _ => exact ⟨_, List.mem_singleton_self _, rfl⟩

theorem Canonical.zero_notMem_factors {e : Expr} (h : e.Canonical) (hnum : e.isNumber = false) :
    Expr.num 0 ∉ e.factors := by
  cases h with
  | mul _ hfs => exact hfs.nontrivial 0 (by simp)
  | num q => cases hnum
  | _ => simp [factors]

theorem factors_of_not_product {e : Expr} (h : e.isProduct = false) : e.factors = [e] := by
  cases e with
  | mul fs => cases h
  | _ => rfl

theorem Canonical.of_mem_factors {e f : Expr} (h : e.Canonical) (hf : f ∈ e.factors) :
    f.Canonical := by
  cases hproduct : e.isProduct with
  | false =>
    rw [factors_of_not_product hproduct, List.mem_singleton] at hf
    rw [hf]
    exact h
  | true =>
    cases h with
    | mul hfs _ => exact hfs f hf
    | _ => cases hproduct

theorem foldNumbers_mul_ne_zero {c : Rat} (hc : c ≠ 0) {es : List Expr} (hes : num 0 ∉ es) :
    (foldNumbers Fraction.mul c es).value ≠ 0 := by
  induction es generalizing c with
  | nil => exact hc
  | cons e es ih =>
    rw [List.mem_cons, not_or] at hes
    cases he : e.isNumber with
    | true =>
      obtain ⟨q, rfl⟩ := isNumber_iff.1 he
      have hq : q ≠ 0 := fun hq => hes.1 (hq ▸ rfl)
      exact ih (mul_ne_zero hc hq) hes.2
    | false =>
      rw [foldNumbers_cons_of_not he]
      exact ih hc hes.2

theorem exists_term_ofFactors {c : Rat} (hc : c ≠ 0) {g : Expr} {fs : List Expr} (hg : g ∈ fs)
    (hcanonical : ∀ f ∈ fs, f.Canonical) (hnot : ∀ f ∈ fs, f.isNumber = false) :
    ∃ t ∈ (ofFactors c fs).terms, t.isNumber = false := by
  have hperm := sort_perm (if c = 1 then fs else fs ++ [num c])
  unfold ofFactors
  rw [if_neg hc]
  split
  · next hnil =>
    rw [hnil] at hperm
    split at hperm
    · rw [List.nil_perm.1 hperm] at hg
      cases hg
    · simp at hperm
  · next f hsingle =>
    -- A single factor is left only if the coefficient is one.
    rw [hsingle] at hperm
    split at hperm
    · have hf : f ∈ fs := hperm.subset (by simp)
      exact (hcanonical f hf).exists_term (hnot f hf)
    · have hlength := hperm.length_eq
      have hpos := List.length_pos_of_mem hg
      simp only [List.length_append, List.length_cons, List.length_nil] at hlength
      omega
  · exact ⟨_, List.mem_singleton_self _, rfl⟩

theorem Canonical.exists_term_neg {e : Expr} (h : e.Canonical) (hnum : e.isNumber = false) :
    ∃ t ∈ (neg e).value.terms, t.isNumber = false := by
  obtain ⟨g, hg, hgnum⟩ := h.exists_factor hnum
  have hfactors : [Expr.num (-1), e].flatMap factors = .num (-1) :: e.factors := by
    rw [List.flatMap_cons, List.flatMap_cons, List.flatMap_nil, List.append_nil]
    rfl
  have hmem {f : Expr} : f ∈ e.factors.filter (!·.isNumber) ↔
      f ∈ e.factors ∧ f.isNumber = false := by
    simp
  unfold neg product
  simp only [Checked.value_bind, Checked.value_pure]
  rw [hfactors, List.filter_cons_of_neg (by simp [isNumber])]
  apply exists_term_ofFactors _ (hmem.2 ⟨hg, hgnum⟩)
  · intro f hf
    exact h.of_mem_factors (hmem.1 hf).1
  · intro f hf
    exact (hmem.1 hf).2
  · apply foldNumbers_mul_ne_zero one_ne_zero
    rw [List.mem_cons, not_or]
    exact ⟨by simp, h.zero_notMem_factors hnum⟩

theorem isNumber_minus {a b : Expr} (ha : a.Canonical) (hb : b.Canonical)
    (hnum : a.isNumber = false ∨ b.isNumber = false) : (a.minus b).value.isNumber = false := by
  simp only [minus, Checked.value_bind]
  rcases hnum with hnum | hnum
  · obtain ⟨t, ht, htnum⟩ := ha.exists_term hnum
    exact isNumber_sum (by simp [ht]) htnum
  · obtain ⟨t, ht, htnum⟩ := hb.exists_term_neg hnum
    exact isNumber_sum (by simp [ht]) htnum

end Expr

namespace Affine

theorem sub_self {a : Affine} (h : a.Reduced) : (a.sub a).value = ofConstant 0 := by
  apply ext_coeff (reduced_sub h a) (reduced_ofConstant 0)
  · simp [ofConstant]
  · simp

theorem toInt?_sub_swap {a b : Affine} (ha : a.Reduced) (hb : b.Reduced) :
    (b.sub a).value.toInt? = (a.sub b).value.toInt?.map Neg.neg := by
  have hconstant : (b.sub a).value.isConstant = (a.sub b).value.isConstant := by
    rw [Bool.eq_iff_iff, isConstant_iff_coeff (reduced_sub hb a),
      isConstant_iff_coeff (reduced_sub ha b)]
    simp only [coeff_sub, sub_eq_zero]
    exact forall_congr' fun s => eq_comm
  unfold toInt? toConstant?
  rw [hconstant]
  split
  · rw [constant_sub, constant_sub, ← neg_sub, Option.bind_some, Fraction.toInt?_neg,
      Option.bind_some]
  · rfl

end Affine

namespace Expr

theorem toInt?_difference_of_affine {a b : Expr} {x y : Affine}
    (ha : (Affine.ofExpr a).value = some x) (hb : (Affine.ofExpr b).value = some y) :
    (a.difference b).value.toInt? = (x.sub y).value.toInt? := by
  unfold difference
  split
  · next heq =>
    rw [heq, hb] at ha
    rw [← Option.some.inj ha, Affine.sub_self (Affine.reduced_ofExpr _ hb)]
    rfl
  · simp only [Checked.value_bind, ha, hb, Affine.toInt?_toExpr]

/-- The difference of two expressions is a literal together with the opposite one. -/
def Reversible (a b : Expr) : Prop :=
  (b.difference a).value.toInt? = (a.difference b).value.toInt?.map Neg.neg

theorem Reversible.of_affine {a b : Expr} (ha : (Affine.ofExpr a).value.isSome = true)
    (hb : (Affine.ofExpr b).value.isSome = true) : Reversible a b := by
  obtain ⟨x, hx⟩ := Option.isSome_iff_exists.1 ha
  obtain ⟨y, hy⟩ := Option.isSome_iff_exists.1 hb
  unfold Reversible
  rw [toInt?_difference_of_affine hx hy, toInt?_difference_of_affine hy hx]
  exact Affine.toInt?_sub_swap (Affine.reduced_ofExpr _ hx) (Affine.reduced_ofExpr _ hy)

theorem isNumber_of_ofExpr_eq_none {e : Expr} (h : (Affine.ofExpr e).value = none) :
    e.isNumber = false := by
  cases e with
  | num q => simp [Affine.ofExpr] at h
  | _ => rfl

theorem exists_affine_of_not_none {a b : Expr}
    (h : ¬((Affine.ofExpr a).value = none ∨ (Affine.ofExpr b).value = none)) :
    (∃ x, (Affine.ofExpr a).value = some x) ∧ ∃ y, (Affine.ofExpr b).value = some y := by
  rw [not_or] at h
  exact ⟨Option.ne_none_iff_exists'.1 h.1, Option.ne_none_iff_exists'.1 h.2⟩

theorem value_difference_of_eq_none {a b : Expr} (hne : a ≠ b)
    (h : (Affine.ofExpr a).value = none ∨ (Affine.ofExpr b).value = none) :
    (a.difference b).value = (a.minus b).value := by
  unfold difference
  rw [if_neg hne]
  simp only [Checked.value_bind]
  rcases h with h | h
  · rw [h]
  · rw [h]
    cases (Affine.ofExpr a).value <;> rfl

theorem Canonical.toInt?_difference {a b : Expr} (ha : a.Canonical) (hb : b.Canonical)
    (hne : a ≠ b) (h : (Affine.ofExpr a).value = none ∨ (Affine.ofExpr b).value = none) :
    (a.difference b).value.toInt? = none := by
  rw [value_difference_of_eq_none hne h]
  exact toInt?_eq_none
    (isNumber_minus ha hb (h.imp isNumber_of_ofExpr_eq_none isNumber_of_ofExpr_eq_none))

theorem difference_self (e : Expr) : e.difference e = pure (num 0) := by simp [difference]

theorem toInt?_difference_self (e : Expr) : (e.difference e).value.toInt? = some 0 := by
  simp [difference_self, toInt?, Fraction.toInt?]

theorem Canonical.reversible {a b : Expr} (ha : a.Canonical) (hb : b.Canonical) :
    Reversible a b := by
  by_cases heq : a = b
  · rw [heq]
    simp [Reversible, toInt?_difference_self]
  · by_cases h : (Affine.ofExpr a).value = none ∨ (Affine.ofExpr b).value = none
    · unfold Reversible
      rw [ha.toInt?_difference hb heq h, hb.toInt?_difference ha (Ne.symm heq) h.symm]
      rfl
    · rw [not_or, ← ne_eq, ← ne_eq, Option.ne_none_iff_isSome, Option.ne_none_iff_isSome] at h
      exact .of_affine h.1 h.2

end Expr

end Stencil
