import Mathlib.Algebra.BigOperators.Group.List.Basic
import Stencil.Proofs.Expr.Closure

/-!
This module contains the fact that sums and products of canonical expressions depend neither on the
order of their arguments nor on how these are grouped. Both are determined by what the numbers among
the arguments combine to and by which other arguments there are.
-/

namespace Stencil

namespace Expr

def number? : Expr → Option Rat
  | num q => some q
  | _ => none

def numbers (es : List Expr) : List Rat := es.filterMap number?

def others (es : List Expr) : List Expr := es.filter (!·.isNumber)

theorem mem_others {es : List Expr} {e : Expr} :
    e ∈ others es ↔ e ∈ es ∧ e.isNumber = false := by
  simp [others]

theorem number?_eq_none {e : Expr} (h : e.isNumber = false) : e.number? = none := by
  cases e with
  | num q => cases h
  | _ => rfl

theorem numbers_others (es : List Expr) : numbers (others es) = [] := by
  unfold numbers
  rw [List.filterMap_eq_nil_iff]
  exact fun e he => number?_eq_none (mem_others.1 he).2

theorem numbers_withNumber (neutral c : Rat) (es : List Expr) :
    numbers (withNumber neutral c (others es)) = if c = neutral then [] else [c] := by
  unfold withNumber
  split
  · exact numbers_others es
  · rw [numbers, List.filterMap_append, ← numbers, numbers_others]
    rfl

theorem others_withNumber (neutral c : Rat) (es : List Expr) :
    others (withNumber neutral c (others es)) = others es := by
  unfold withNumber others
  split
  · simp
  · simp [isNumber]

theorem withNumber_perm (neutral c : Rat) {es fs : List Expr} (h : es.Perm fs) :
    (withNumber neutral c es).Perm (withNumber neutral c fs) := by
  unfold withNumber
  split
  · exact h
  · exact h.append_right _

theorem value_foldNumbers {op : Rat → Rat → Checked Rat} {f : Rat → Rat → Rat}
    (hop : ∀ p q, (op p q).value = f p q) (c : Rat) (es : List Expr) :
    (foldNumbers op c es).value = (numbers es).foldl f c := by
  induction es generalizing c with
  | nil => rfl
  | cons e es ih =>
    cases he : e.isNumber with
    | true =>
      obtain ⟨q, rfl⟩ := isNumber_iff.1 he
      rw [foldNumbers, Checked.value_bind, ih, hop]
      rfl
    | false =>
      rw [foldNumbers_cons_of_not he, ih, numbers, numbers,
        List.filterMap_cons_none (number?_eq_none he)]

structure Combination where
  total : List Rat → Rat
  neutral : Rat
  /-- The totals that leave nothing of the other arguments. -/
  absorbing : Rat → Prop
  total_nil : total [] = neutral
  total_singleton : ∀ q, total [q] = q
  total_perm : ∀ {qs rs}, qs.Perm rs → total qs = total rs
  total_append : ∀ {qs qs' rs rs'}, total qs = total qs' → total rs = total rs' →
    total (qs ++ rs) = total (qs' ++ rs')
  absorbing_append : ∀ {qs rs}, absorbing (total qs) ∨ absorbing (total rs) →
    absorbing (total (qs ++ rs))

namespace Combination

def sum : Combination where
  total := List.sum
  neutral := 0
  absorbing _ := False
  total_nil := rfl
  total_singleton _ := List.sum_singleton
  total_perm h := h.sum_eq
  total_append h h' := by rw [List.sum_append, List.sum_append, h, h']
  absorbing_append h := h.elim id id

def product : Combination where
  total := List.prod
  neutral := 1
  absorbing q := q = 0
  total_nil := rfl
  total_singleton _ := List.prod_singleton
  total_perm h := h.prod_eq
  total_append h h' := by rw [List.prod_append, List.prod_append, h, h']
  absorbing_append h := by rwa [List.prod_append, mul_eq_zero]

/-- Two lists of arguments with the same total and, unless it absorbs them, the same others. -/
def Same (k : Combination) (es fs : List Expr) : Prop :=
  k.total (numbers es) = k.total (numbers fs) ∧
    (k.absorbing (k.total (numbers es)) ∨ (others es).Perm (others fs))

variable {k : Combination}

theorem Same.of_perm {es fs : List Expr} (h : es.Perm fs) : k.Same es fs :=
  ⟨k.total_perm (h.filterMap _), .inr (h.filter _)⟩

theorem Same.refl (es : List Expr) : k.Same es es := .of_perm (.refl es)

theorem Same.trans {es fs gs : List Expr} (h : k.Same es fs) (h' : k.Same fs gs) :
    k.Same es gs := by
  refine ⟨h.1.trans h'.1, ?_⟩
  rcases h.2 with habsorbing | hperm
  · exact .inl habsorbing
  · rcases h'.2 with habsorbing | hperm'
    · rw [← h.1] at habsorbing
      exact .inl habsorbing
    · exact .inr (hperm.trans hperm')

theorem Same.append {es es' fs fs' : List Expr} (h : k.Same es es') (h' : k.Same fs fs') :
    k.Same (es ++ fs) (es' ++ fs') := by
  unfold Same numbers others at *
  simp only [List.filterMap_append, List.filter_append]
  refine ⟨k.total_append h.1 h'.1, ?_⟩
  rcases h.2, h'.2 with ⟨habsorbing | hperm, habsorbing' | hperm'⟩
  · exact .inl (k.absorbing_append (.inl habsorbing))
  · exact .inl (k.absorbing_append (.inl habsorbing))
  · exact .inl (k.absorbing_append (.inr habsorbing'))
  · exact .inr (hperm.append hperm')

theorem Same.flatMap {α : Type} {f f' : α → List Expr} {as : List α}
    (h : ∀ a ∈ as, k.Same (f a) (f' a)) : k.Same (as.flatMap f) (as.flatMap f') := by
  induction as with
  | nil => exact .refl []
  | cons a as ih =>
    rw [List.forall_mem_cons] at h
    rw [List.flatMap_cons, List.flatMap_cons]
    exact h.1.append (ih h.2)

theorem same_assemble (k : Combination) {node : List Expr → Expr} {parts : Expr → List Expr}
    (hnode : ∀ es, parts (node es) = es) (hnumber : ∀ q, parts (num q) = [num q])
    {es : List Expr} (hself : ∀ e ∈ es, parts e = [e]) :
    k.Same (parts (assemble node k.neutral
      (sort (withNumber k.neutral (k.total (numbers es)) (others es))))) es := by
  have hwith : k.Same (withNumber k.neutral (k.total (numbers es)) (others es)) es := by
    refine ⟨?_, .inr (.of_eq (others_withNumber ..))⟩
    rw [numbers_withNumber]
    split
    · next htotal => rw [k.total_nil, htotal]
    · exact k.total_singleton _
  refine Same.trans ?_ (.trans (.of_perm (sort_perm _)) hwith)
  unfold assemble
  split
  · next hnil =>
    rw [hnil, hnumber]
    refine ⟨?_, .inr (.refl _)⟩
    exact (k.total_singleton _).trans k.total_nil.symm
  · next e hsingle =>
    have he : e ∈ withNumber k.neutral (k.total (numbers es)) (others es) := by
      rw [← (sort_perm _).mem_iff, hsingle]
      exact List.mem_singleton_self e
    rw [hsingle]
    rcases mem_withNumber.1 he with he | ⟨-, rfl⟩
    · rw [hself e (mem_others.1 he).1]
      exact .refl _
    · rw [hnumber]
      exact .refl _
  · rw [hnode]
    exact .refl _

theorem same_groups {build : List Expr → Expr} {parts : Expr → List Expr} {gs : List (List Expr)}
    (h : ∀ g ∈ gs, k.Same (parts (build g)) (g.flatMap parts)) :
    k.Same ((gs.map build).flatMap parts) (gs.flatten.flatMap parts) := by
  rw [List.flatMap_map, List.flatten_eq_flatMap, List.flatMap_assoc]
  exact .flatMap h

end Combination

theorem value_sum (es : List Expr) :
    (sum es).value = ofTerms (numbers (es.flatMap terms)).sum (others (es.flatMap terms)) := by
  rw [List.sum_eq_foldl, ← value_foldNumbers Fraction.value_add]
  rfl

theorem value_product (es : List Expr) :
    (product es).value =
      ofFactors (numbers (es.flatMap factors)).prod (others (es.flatMap factors)) := by
  rw [List.prod_eq_foldl, ← value_foldNumbers Fraction.value_mul]
  rfl

theorem sum_congr {es fs : List Expr}
    (h : Combination.sum.Same (es.flatMap terms) (fs.flatMap terms)) :
    (sum es).value = (sum fs).value := by
  obtain ⟨htotal, hothers⟩ := h
  have hperm := hothers.resolve_left id
  have htotal : (numbers (es.flatMap terms)).sum = (numbers (fs.flatMap terms)).sum := htotal
  rw [value_sum, value_sum, ofTerms_eq_assemble, ofTerms_eq_assemble, htotal,
    sort_congr (withNumber_perm 0 _ hperm)]

theorem product_congr {es fs : List Expr}
    (h : Combination.product.Same (es.flatMap factors) (fs.flatMap factors)) :
    (product es).value = (product fs).value := by
  obtain ⟨htotal, hothers⟩ := h
  have htotal : (numbers (es.flatMap factors)).prod = (numbers (fs.flatMap factors)).prod := htotal
  rw [value_product, value_product, ← htotal]
  by_cases hzero : (numbers (es.flatMap factors)).prod = 0
  · rw [ofFactors, ofFactors, if_pos hzero, if_pos hzero]
  · have hperm := hothers.resolve_left hzero
    rw [ofFactors_eq_assemble hzero, ofFactors_eq_assemble hzero,
      sort_congr (withNumber_perm 1 _ hperm)]

theorem same_terms_sum {es : List Expr} (hes : ∀ e ∈ es, e.Canonical) :
    Combination.sum.Same (sum es).value.terms (es.flatMap terms) := by
  rw [value_sum, ofTerms_eq_assemble]
  apply Combination.sum.same_assemble (fun _ => rfl) fun _ => rfl
  intro t ht
  obtain ⟨e, he, ht⟩ := List.mem_flatMap.1 ht
  exact terms_of_not_sum ((hes e he).of_mem_terms ht).2

theorem same_factors_product {es : List Expr} (hes : ∀ e ∈ es, e.Canonical) :
    Combination.product.Same (product es).value.factors (es.flatMap factors) := by
  rw [value_product]
  by_cases hzero : (numbers (es.flatMap factors)).prod = 0
  · -- Nothing but zero is left of the product.
    have htotal : Combination.product.total (numbers (num 0).factors) = 0 := List.prod_singleton
    rw [ofFactors, if_pos hzero]
    exact ⟨htotal.trans hzero.symm, .inl htotal⟩
  · rw [ofFactors_eq_assemble hzero]
    apply Combination.product.same_assemble (fun _ => rfl) fun _ => rfl
    intro f hf
    obtain ⟨e, he, hf⟩ := List.mem_flatMap.1 hf
    exact factors_of_not_product ((hes e he).isProduct_of_mem_factors hf)

/--
Sums and products of canonical expressions are the same expressions in whatever order their
arguments are given and however these are grouped.
-/
theorem regroup_sum_product {xs ys : List Expr} {gs : List (List Expr)}
    (hxs : ∀ x ∈ xs, x.Canonical) (hys : ys.Perm xs) (hgs : gs.flatten = ys) :
    (sum ys).value = (sum xs).value ∧
      (sum (gs.map fun g => (sum g).value)).value = (sum xs).value ∧
      (product ys).value = (product xs).value ∧
      (product (gs.map fun g => (product g).value)).value = (product xs).value := by
  have hsum : (sum ys).value = (sum xs).value := sum_congr (.of_perm (hys.flatMap_right _))
  have hproduct : (product ys).value = (product xs).value :=
    product_congr (.of_perm (hys.flatMap_right _))
  have hcanonical : ∀ g ∈ gs, ∀ e ∈ g, e.Canonical := by
    intro g hg e he
    apply hxs e
    rw [← hys.mem_iff, ← hgs]
    exact List.mem_flatten.2 ⟨g, hg, he⟩
  rw [← hsum, ← hproduct, ← hgs]
  refine ⟨rfl, sum_congr ?_, rfl, product_congr ?_⟩
  · exact Combination.same_groups fun g hg => same_terms_sum (hcanonical g hg)
  · exact Combination.same_groups fun g hg => same_factors_product (hcanonical g hg)

def raised (c : Rat) : Expr := .add [.num c, .sym "x"]

theorem canonical_raised {c : Rat} (hc : c ≠ 0) : (raised c).Canonical := by
  apply Canonical.add (canonical_pair (.num c) (.sym "x"))
  exact arguments_num_sym rfl rfl (by simpa using hc)

theorem regroup_sum_product_raised :
    (sum ([[raised 1, .num 2], [], [raised (-3)]].map fun g => (sum g).value)).value =
        .add [.sym "x", .sym "x"] ∧
      (product ([[raised 1, .num 2], [], [raised (-3)]].map fun g => (product g).value)).value =
        .mul [.num 2, raised (-3), raised 1] := by
  have hxs : ∀ x ∈ [.num 2, raised 1, raised (-3)], x.Canonical := by
    simp [Canonical.num, canonical_raised]
  have hys : [raised 1, .num 2, raised (-3)].Perm [.num 2, raised 1, raised (-3)] := .swap ..
  have hgs : [[raised 1, .num 2], [], [raised (-3)]].flatten =
      [raised 1, .num 2, raised (-3)] := rfl
  obtain ⟨-, hsum, -, hproduct⟩ := regroup_sum_product hxs hys hgs
  rw [hsum, hproduct]
  decide +kernel

end Expr

end Stencil
