import Stencil.Proofs.Expr.Naming
import Stencil.Proofs.Formula

/-!
This module contains the fact that the operations that build expressions keep them canonical. Sums
and products flatten their arguments by one level only and return a single argument as it is, so
each of them relies on its arguments being canonical.
-/

namespace Stencil

namespace Expr

theorem terms_of_not_sum {e : Expr} (h : e.isSum = false) : e.terms = [e] := by
  cases e with
  | add ts => cases h
  | _ => rfl

theorem Canonical.of_mem_terms {e t : Expr} (h : e.Canonical) (ht : t ∈ e.terms) :
    t.Canonical ∧ t.isSum = false := by
  cases hsum : e.isSum with
  | false =>
    rw [terms_of_not_sum hsum, List.mem_singleton] at ht
    rw [ht]
    exact ⟨h, hsum⟩
  | true =>
    cases h with
    | add hts h => exact ⟨hts t ht, h.flat t ht⟩
    | _ => cases hsum

theorem Canonical.isProduct_of_mem_factors {e f : Expr} (h : e.Canonical) (hf : f ∈ e.factors) :
    f.isProduct = false := by
  cases hproduct : e.isProduct with
  | false =>
    rw [factors_of_not_product hproduct, List.mem_singleton] at hf
    rwa [hf]
  | true =>
    cases h with
    | mul _ h => exact h.flat f hf
    | _ => cases hproduct

def assemble (node : List Expr → Expr) (neutral : Rat) : List Expr → Expr
  | [] => num neutral
  | [e] => e
  | es => node es

def withNumber (neutral c : Rat) (es : List Expr) : List Expr :=
  if c = neutral then es else es ++ [num c]

theorem ofTerms_eq_assemble (c : Rat) (ts : List Expr) :
    ofTerms c ts = assemble add 0 (sort (withNumber 0 c ts)) := rfl

theorem ofFactors_eq_assemble {c : Rat} (hc : c ≠ 0) (fs : List Expr) :
    ofFactors c fs = assemble mul 1 (sort (withNumber 1 c fs)) := by
  rw [ofFactors, if_neg hc]
  rfl

theorem mem_withNumber {neutral c : Rat} {es : List Expr} {e : Expr} :
    e ∈ withNumber neutral c es ↔ e ∈ es ∨ c ≠ neutral ∧ e = num c := by
  unfold withNumber
  split <;> simp_all

theorem filter_isNumber_withNumber {neutral c : Rat} {es : List Expr}
    (hnot : ∀ e ∈ es, e.isNumber = false) :
    (withNumber neutral c es).filter isNumber = if c = neutral then [] else [num c] := by
  have hnone : es.filter isNumber = [] := by
    rw [List.filter_eq_nil_iff]
    intro e he
    simp [hnot e he]
  unfold withNumber
  split
  · exact hnone
  · rw [List.filter_append, hnone]
    rfl

section Arguments

variable {node : List Expr → Expr} {nested : Expr → Bool} {trivial : List Rat} {neutral c : Rat}

theorem canonical_assemble
    (hnode : ∀ es, (∀ e ∈ es, Canonical e) → Arguments nested trivial es → Canonical (node es))
    (hnumber : nested (num c) = false) (htrivial : c ≠ neutral → c ∉ trivial) {es : List Expr}
    (hes : ∀ e ∈ es, e.Canonical) (hflat : ∀ e ∈ es, nested e = false)
    (hnot : ∀ e ∈ es, e.isNumber = false) :
    (assemble node neutral (sort (withNumber neutral c es))).Canonical := by
  have hmem {e : Expr} (he : e ∈ sort (withNumber neutral c es)) :
      e ∈ es ∨ c ≠ neutral ∧ e = num c :=
    mem_withNumber.1 ((sort_perm _).mem_iff.1 he)
  have hcanonical : ∀ e ∈ sort (withNumber neutral c es), e.Canonical := by
    intro e he
    rcases hmem he with he | ⟨-, rfl⟩
    · exact hes e he
    · exact .num c
  have harguments (htwo : 2 ≤ (sort (withNumber neutral c es)).length) :
      Arguments nested trivial (sort (withNumber neutral c es)) := by
    refine ⟨htwo, pairwise_sort _, ?_, ?_, ?_⟩
    · intro e he
      rcases hmem he with he | ⟨-, rfl⟩
      · exact hflat e he
      · exact hnumber
    · rw [((sort_perm _).filter isNumber).length_eq, filter_isNumber_withNumber hnot]
      split <;> simp
    · intro q hq he
      rcases hmem he with he | ⟨hc, heq⟩
      · cases hnot _ he
      · exact htrivial hc (num.inj heq ▸ hq)
  unfold assemble
  split
  · exact .num neutral
  · next e hsingle => exact hcanonical e (hsingle ▸ List.mem_singleton_self e)
  · next es' hnil hsingle =>
    apply hnode _ hcanonical (harguments _)
    rcases hlist : sort (withNumber neutral c es) with _ | ⟨e, _ | ⟨e', es'⟩⟩
    · exact absurd hlist hnil
    · exact absurd hlist (hsingle e)
    · simp

end Arguments

theorem canonical_pair {a b : Expr} (ha : a.Canonical) (hb : b.Canonical) :
    ∀ e ∈ [a, b], e.Canonical := by
  simp [ha, hb]

theorem arguments_num_sym {nested : Expr → Bool} {trivial : List Rat} {c : Rat} {s : String}
    (hnum : nested (num c) = false) (hsym : nested (sym s) = false) (hc : c ∉ trivial) :
    Arguments nested trivial [num c, sym s] where
  two_le := le_refl 2
  sorted := List.pairwise_pair.2 rfl
  flat := by simp [hnum, hsym]
  numbers_le := le_refl 1
  nontrivial q hq hmem := by
    obtain rfl : q = c := by simpa using hmem
    exact hc hq

theorem canonical_sum {es : List Expr} (hes : ∀ e ∈ es, e.Canonical) :
    (sum es).value.Canonical := by
  have hmem {t : Expr} (ht : t ∈ (es.flatMap terms).filter (!·.isNumber)) :
      (t.Canonical ∧ t.isSum = false) ∧ t.isNumber = false := by
    rw [List.mem_filter, List.mem_flatMap] at ht
    obtain ⟨⟨e, he, ht⟩, hnot⟩ := ht
    exact ⟨(hes e he).of_mem_terms ht, by simpa using hnot⟩
  simp only [sum, Checked.value_bind, Checked.value_pure, ofTerms_eq_assemble]
  apply canonical_assemble (fun _ => Canonical.add) rfl (by simp)
  · exact fun t ht => (hmem ht).1.1
  · exact fun t ht => (hmem ht).1.2
  · exact fun t ht => (hmem ht).2

theorem canonical_product {es : List Expr} (hes : ∀ e ∈ es, e.Canonical) :
    (product es).value.Canonical := by
  have hmem {f : Expr} (hf : f ∈ (es.flatMap factors).filter (!·.isNumber)) :
      (f.Canonical ∧ f.isProduct = false) ∧ f.isNumber = false := by
    rw [List.mem_filter, List.mem_flatMap] at hf
    obtain ⟨⟨e, he, hf⟩, hnot⟩ := hf
    exact ⟨⟨(hes e he).of_mem_factors hf, (hes e he).isProduct_of_mem_factors hf⟩,
      by simpa using hnot⟩
  simp only [product, Checked.value_bind, Checked.value_pure]
  by_cases hzero : (foldNumbers Fraction.mul 1 (es.flatMap factors)).value = 0
  · rw [ofFactors, if_pos hzero]
    exact .num 0
  · rw [ofFactors_eq_assemble hzero]
    apply canonical_assemble (fun _ => Canonical.mul) rfl (by simp [hzero])
    · exact fun f hf => (hmem hf).1.1
    · exact fun f hf => (hmem hf).1.2
    · exact fun f hf => (hmem hf).2

theorem Canonical.power {b : Expr} (hb : b.Canonical) (n : Int) :
    (power b n).value.Canonical := by
  unfold Expr.power
  split
  · exact .num 1
  · next hzero =>
    split
    · exact hb
    · next hone =>
      split
      · next q =>
        split
        · exact .num _
        · next hpole =>
          -- Zero to a negative power is the only power of a number that is left.
          rw [not_or, Decidable.not_not] at hpole
          refine .pow hb ⟨hzero, hone⟩ fun q' hq' => ?_
          obtain rfl := num.inj hq'
          exact ⟨hpole.2, by omega⟩
      · next hnot => exact .pow hb ⟨hzero, hone⟩ fun q hq => absurd hq (hnot q)

theorem Canonical.neg {a : Expr} (ha : a.Canonical) : (neg a).value.Canonical :=
  canonical_product (canonical_pair (.num (-1)) ha)

theorem Canonical.minus {a b : Expr} (ha : a.Canonical) (hb : b.Canonical) :
    (minus a b).value.Canonical :=
  canonical_sum (canonical_pair ha hb.neg)

theorem closed_canonical : Closed Canonical where
  num := .num
  sym := .sym
  access _ _ _ his := .access _ his
  sum := canonical_sum
  product := canonical_product
  neg := .neg
  power := .power
  call s _ has := .call s has

theorem Canonical.replace {σ : Expr → Option Expr} (hσ : ∀ a b, σ a = some b → b.Canonical)
    {e : Expr} : e.Canonical → (replace σ e).value.Canonical := by
  have hargs {e : Expr} (he : e.Canonical)
      (ih : ∀ a ∈ e.args, a.Canonical → (Expr.replace σ a).value.Canonical) :
      ∀ a ∈ e.args.map fun a => (Expr.replace σ a).value, a.Canonical := by
    intro a' ha'
    obtain ⟨a, ha, rfl⟩ := List.mem_map.1 ha'
    exact ih a ha (he.of_mem_args ha)
  induction e using replace_induct (σ := σ) with
  | found e e' hfound => exact fun _ => hσ e e' hfound
  | leaf e _ _ => exact id
  | add ts _ ih => exact fun he => canonical_sum (hargs he ih)
  | mul fs _ ih => exact fun he => canonical_product (hargs he ih)
  | pow b n _ ih => exact fun he => (ih (he.of_mem_args (List.mem_singleton_self b))).power n
  | call s as _ ih => exact fun he => .call s (hargs he ih)

end Expr

namespace Affine

theorem canonical_termToExpr {e : String × Rat} (he : e.2 ≠ 0) : (termToExpr e).Canonical := by
  unfold termToExpr
  split
  · exact .sym e.1
  · next hone =>
    apply Expr.Canonical.mul (Expr.canonical_pair (.num e.2) (.sym e.1))
    exact Expr.arguments_num_sym rfl rfl (by simp [he, hone])

theorem canonical_toExpr {a : Affine} (ha : a.Reduced) : a.toExpr.value.Canonical := by
  have hterms : ∀ t ∈ a.terms.entries.map termToExpr, t.Canonical := by
    intro t ht
    obtain ⟨e, he, rfl⟩ := List.mem_map.1 ht
    apply canonical_termToExpr
    intro hzero
    apply ha e.1
    rw [OrdMap.find?_eq_some_iff, ← hzero]
    exact he
  unfold toExpr
  apply Expr.canonical_sum
  intro t ht
  split at ht
  · rcases List.mem_append.1 ht with ht | ht
    · exact hterms t ht
    · rw [List.mem_singleton.1 ht]
      exact .num a.constant
  · exact hterms t ht

end Affine

namespace Expr

theorem Canonical.simplify {e : Expr} (he : e.Canonical) : (simplify e).value.Canonical := by
  simp only [Expr.simplify, Checked.value_bind]
  cases hform : (Affine.ofExpr e).value with
  | none => exact he
  | some a => exact Affine.canonical_toExpr (Affine.reduced_ofExpr e hform)

theorem Canonical.difference {a b : Expr} (ha : a.Canonical) (hb : b.Canonical) :
    (difference a b).value.Canonical := by
  unfold Expr.difference
  split
  · exact .num 0
  · simp only [Checked.value_bind]
    split
    · next x y hx _ =>
      exact Affine.canonical_toExpr (Affine.reduced_sub (Affine.reduced_ofExpr a hx) y)
    · exact ha.minus hb

/--
Every operation on canonical expressions gives a canonical one, and so does every formula. This does
not depend on whether the arithmetic on numbers stays in range.
-/
theorem canonical_operations {es : List Expr} {a b : Expr} {σ : Expr → Option Expr}
    (hes : ∀ e ∈ es, e.Canonical) (ha : a.Canonical) (hb : b.Canonical)
    (hσ : ∀ x y, σ x = some y → y.Canonical) :
    (sum es).value.Canonical ∧ (product es).value.Canonical ∧
      (∀ n, (power a n).value.Canonical) ∧ (neg a).value.Canonical ∧
      (plus a b).value.Canonical ∧ (minus a b).value.Canonical ∧ (times a b).value.Canonical ∧
      (∀ s, (call s es).Canonical) ∧ (∀ f, (access f es).Canonical) ∧
      (simplify a).value.Canonical ∧ (difference a b).value.Canonical ∧
      (replace σ a).value.Canonical ∧
      ∀ t formula e, (Formula.toExpr t formula).run.value = .ok e → e.Canonical :=
  ⟨canonical_sum hes, canonical_product hes, ha.power, ha.neg, canonical_sum (canonical_pair ha hb),
    ha.minus hb, canonical_product (canonical_pair ha hb), fun s => .call s hes,
    fun f => .access f hes, ha.simplify, ha.difference hb, ha.replace hσ,
    fun _ formula _ h => formula.of_toExpr closed_canonical h⟩

/-- The fraction `x / (x - 3)`, which has a pole at three. -/
def quotient : Expr := .mul [.sym "x", .pow (.add [.num (-3), .sym "x"]) (-1)]

theorem canonical_operations_quotient :
    quotient.Canonical ∧
      (replace (fun e => if e = .sym "x" then some (.num 3) else none) quotient).value =
        .mul [.num 3, .pow (.num 0) (-1)] ∧
      Canonical (.mul [.num 3, .pow (.num 0) (-1)]) := by
  have hshift : Canonical (.add [.num (-3), .sym "x"]) :=
    .add (canonical_pair (.num _) (.sym _)) (arguments_num_sym rfl rfl (by simp))
  have hquotient : quotient.Canonical := by
    refine .mul (canonical_pair (.sym _) (.pow hshift ?_ nofun)) ⟨?_, ?_, ?_, ?_, ?_⟩
    all_goals decide +kernel
  have hvalue : (replace (fun e => if e = .sym "x" then some (.num 3) else none) quotient).value =
      .mul [.num 3, .pow (.num 0) (-1)] := by
    decide +kernel
  have hput (x y : Expr) (h : (if x = .sym "x" then some (.num 3) else none) = some y) :
      y.Canonical := by
    split at h
    · obtain rfl := Option.some.inj h
      exact .num 3
    · cases h
  obtain ⟨-, -, -, -, -, -, -, -, -, -, -, hreplace, -⟩ :=
    canonical_operations (canonical_pair hquotient hshift) hquotient hshift hput
  rw [hvalue] at hreplace
  exact ⟨hquotient, hvalue, hreplace⟩

end Expr

end Stencil
