import Stencil.Proofs.Affine.Denote
import Stencil.Proofs.Expr.Closure
import Stencil.Proofs.Expr.Eval

/-!
This module contains the fact that building expressions keeps their values. An expression evaluates
if it is defined: its scalars have values, it reads no arrays and calls no functions, and no power
in it has a pole. The operations drop, collect and reorder their arguments, but they make nothing
that is not defined from what is, so their values are found where evaluation stays in range.
-/

namespace Stencil

/-- If a computation stays in range, its answer is `a`. -/
def Checked.Answers {α : Type} (x : Checked α) (a : α) : Prop := x.fits = true → x = pure a

namespace Expr

variable {ρ : String → Option Int}

def total (ρ : String → Option Int) (e : Expr) : Rat :=
  e.denote default fun s => ((ρ s).getD 0 : Int)

/-- All that an expression is computed from has a value. -/
inductive Defined (ρ : String → Option Int) : Expr → Prop
  | num (q : Rat) : Defined ρ (num q)
  | sym {s : String} (hs : (ρ s).isSome = true) : Defined ρ (sym s)
  | add {ts : List Expr} (hts : ∀ t ∈ ts, Defined ρ t) : Defined ρ (add ts)
  | mul {fs : List Expr} (hfs : ∀ f ∈ fs, Defined ρ f) : Defined ρ (mul fs)
  | pow {b : Expr} {n : Int} (hb : Defined ρ b) (hpole : ¬(b.total ρ = 0 ∧ n < 0)) :
    Defined ρ (pow b n)

theorem total_add (ts : List Expr) : (add ts).total ρ = (ts.map (total ρ)).sum := by
  rw [total, denote, denoteAll_eq_map]
  rfl

theorem total_mul (fs : List Expr) : (mul fs).total ρ = (fs.map (total ρ)).prod := by
  rw [total, denote, denoteAll_eq_map]
  rfl

theorem total_pow {b : Expr} {n : Int} (hpole : ¬(b.total ρ = 0 ∧ n < 0)) :
    (pow b n).total ρ = b.total ρ ^ n := by
  rw [total, denote, Interpretation.power]
  exact if_neg hpole

section Evaluate

theorem value_evaluateSum {es : List Expr} {acc : Rat}
    (h : ∀ e ∈ es, (e.evaluate ρ).fits = true → (e.evaluate ρ).value = some (e.total ρ))
    (hfits : (evaluateSum ρ acc es).fits = true) :
    (evaluateSum ρ acc es).value = some (acc + (es.map (total ρ)).sum) := by
  induction es generalizing acc with
  | nil => simp [evaluateSum]
  | cons e es ih =>
    rw [List.forall_mem_cons] at h
    rw [evaluateSum, Checked.fits_bind, Bool.and_eq_true] at hfits
    have hvalue := h.1 hfits.1
    rw [hvalue] at hfits
    rw [evaluateSum, Checked.value_bind, hvalue, Checked.value_bind]
    simp only [Checked.fits_bind, Bool.and_eq_true] at hfits
    rw [ih h.2 hfits.2.2, Fraction.value_add, add_assoc, List.map_cons, List.sum_cons]

theorem value_evaluateProduct {es : List Expr} {acc : Rat}
    (h : ∀ e ∈ es, (e.evaluate ρ).fits = true → (e.evaluate ρ).value = some (e.total ρ))
    (hfits : (evaluateProduct ρ acc es).fits = true) :
    (evaluateProduct ρ acc es).value = some (acc * (es.map (total ρ)).prod) := by
  induction es generalizing acc with
  | nil => simp [evaluateProduct]
  | cons e es ih =>
    rw [List.forall_mem_cons] at h
    rw [evaluateProduct, Checked.fits_bind, Bool.and_eq_true] at hfits
    have hvalue := h.1 hfits.1
    rw [hvalue] at hfits
    rw [evaluateProduct, Checked.value_bind, hvalue, Checked.value_bind]
    simp only [Checked.fits_bind, Bool.and_eq_true] at hfits
    rw [ih h.2 hfits.2.2, Fraction.value_mul, mul_assoc, List.map_cons, List.prod_cons]

theorem Defined.answers_evaluate {e : Expr} (h : e.Defined ρ) :
    (e.evaluate ρ).Answers (some (e.total ρ)) := by
  intro hfits
  refine Checked.eq_pure_iff.2 ⟨hfits, ?_⟩
  induction h with
  | num q =>
    rw [total, denote, Rat.cast_id]
    rfl
  | @sym s hs =>
    obtain ⟨i, hi⟩ := Option.isSome_iff_exists.1 hs
    simp [evaluate, total, denote, hi]
  | @add ts _ ih =>
    rw [evaluate] at hfits ⊢
    rw [value_evaluateSum ih hfits, zero_add, total_add]
  | @mul fs _ ih =>
    rw [evaluate] at hfits ⊢
    rw [value_evaluateProduct ih hfits, one_mul, total_mul]
  | @pow b n _ hpole ih =>
    rw [evaluate, Checked.fits_bind, Bool.and_eq_true] at hfits
    have hvalue := ih hfits.1
    simp only [hvalue, if_neg hpole, Checked.fits_bind, Bool.and_eq_true] at hfits
    simp only [evaluate, Checked.value_bind, hvalue, if_neg hpole, Checked.value_pure]
    rw [Fraction.value_pow hfits.2.1, total_pow hpole]

theorem defined_of_evaluate {e : Expr} {v : Rat} (h : e.evaluate ρ = pure (some v)) :
    e.Defined ρ ∧ e.total ρ = v := by
  refine ⟨?_, denote_of_evaluate default h⟩
  have hlist {es : List Expr} {vs : List Rat}
      (h : List.Forall₂ (fun e v => Defined ρ e ∧ e.total ρ = v) es vs) :
      ∀ e ∈ es, e.Defined ρ := by
    intro e he
    obtain ⟨v, -, hv⟩ := exists_mem_right h he
    exact hv.1
  have hsum {es : List Expr} {vs : List Rat}
      (h : List.Forall₂ (fun e v => Defined ρ e ∧ e.total ρ = v) es vs) :
      es.map (total ρ) = vs := by
    rw [← List.forall₂_eq_eq_eq, List.forall₂_map_left_iff]
    exact h.imp fun _ _ hv => hv.2
  refine And.left (b := e.total ρ = v) ?_
  apply evaluate_induct (motive := fun e v => Defined ρ e ∧ e.total ρ = v) _ _ _ _ _ h
  · exact fun q => ⟨.num q, Rat.cast_id q⟩
  · intro s i hi
    exact ⟨.sym (by rw [hi]; rfl), by simp [total, denote, hi]⟩
  · intro ts vs ih
    exact ⟨.add (hlist ih), by rw [total_add, hsum ih]⟩
  · intro fs vs ih
    exact ⟨.mul (hlist ih), by rw [total_mul, hsum ih]⟩
  · rintro b n u ⟨hb, rfl⟩ hpole
    exact ⟨.pow hb hpole, total_pow hpole⟩

end Evaluate

section Build

theorem Defined.of_mem_terms {e t : Expr} (h : e.Defined ρ) (ht : t ∈ e.terms) : t.Defined ρ := by
  cases hsum : e.isSum with
  | false =>
    rw [terms_of_not_sum hsum, List.mem_singleton] at ht
    rwa [ht]
  | true =>
    cases h with
    | add hts => exact hts t ht
    | _ => cases hsum

theorem Defined.of_mem_factors {e f : Expr} (h : e.Defined ρ) (hf : f ∈ e.factors) :
    f.Defined ρ := by
  cases hproduct : e.isProduct with
  | false =>
    rw [factors_of_not_product hproduct, List.mem_singleton] at hf
    rwa [hf]
  | true =>
    cases h with
    | mul hfs => exact hfs f hf
    | _ => cases hproduct

theorem defined_assemble {node : List Expr → Expr}
    (hnode : ∀ es, (∀ e ∈ es, e.Defined ρ) → (node es).Defined ρ) {neutral c : Rat}
    {es : List Expr} (hes : ∀ e ∈ es, e.Defined ρ) :
    (assemble node neutral (sort (withNumber neutral c es))).Defined ρ := by
  have hall : ∀ e ∈ sort (withNumber neutral c es), e.Defined ρ := by
    intro e he
    rcases mem_withNumber.1 ((sort_perm _).mem_iff.1 he) with he | ⟨-, rfl⟩
    · exact hes e he
    · exact .num c
  unfold assemble
  split
  · exact .num neutral
  · next e hsingle => exact hall e (hsingle ▸ List.mem_singleton_self e)
  · exact hnode _ hall

theorem defined_sum {es : List Expr} (hes : ∀ e ∈ es, e.Defined ρ) :
    (sum es).value.Defined ρ := by
  simp only [sum, Checked.value_bind, Checked.value_pure, ofTerms_eq_assemble]
  apply defined_assemble fun _ => .add
  intro t ht
  obtain ⟨e, he, ht⟩ := List.mem_flatMap.1 (List.mem_of_mem_filter ht)
  exact (hes e he).of_mem_terms ht

theorem defined_product {es : List Expr} (hes : ∀ e ∈ es, e.Defined ρ) :
    (product es).value.Defined ρ := by
  simp only [product, Checked.value_bind, Checked.value_pure]
  by_cases hzero : (foldNumbers Fraction.mul 1 (es.flatMap factors)).value = 0
  · rw [ofFactors, if_pos hzero]
    exact .num 0
  · rw [ofFactors_eq_assemble hzero]
    apply defined_assemble fun _ => .mul
    intro f hf
    obtain ⟨e, he, hf⟩ := List.mem_flatMap.1 (List.mem_of_mem_filter hf)
    exact (hes e he).of_mem_factors hf

theorem Defined.neg {a : Expr} (ha : a.Defined ρ) : (neg a).value.Defined ρ := by
  apply defined_product
  simp [ha, Defined.num]

theorem Defined.power {b : Expr} {n : Int} (hb : b.Defined ρ)
    (hpole : ¬(b.total ρ = 0 ∧ n < 0)) : (power b n).value.Defined ρ := by
  unfold Expr.power
  split
  · exact .num 1
  · split
    · exact hb
    · split
      · split
        · exact .num _
        · exact .pow hb hpole
      · exact .pow hb hpole

theorem total_power {b : Expr} {n : Int} (hpole : ¬(b.total ρ = 0 ∧ n < 0))
    (hfits : (power b n).fits = true) : (power b n).value.total ρ = b.total ρ ^ n :=
  (denote_power hfits).trans (if_neg hpole)

theorem Defined.isSome_of_mem_symbols {e : Expr} (h : e.Defined ρ) {s : String}
    (hs : s ∈ e.symbols) : (ρ s).isSome = true := by
  induction h with
  | num q => cases hs
  | sym hsome => rwa [List.mem_singleton.1 hs]
  | add _ ih =>
    obtain ⟨t, ht, hs⟩ := mem_symbolsOfList.1 hs
    exact ih t ht hs
  | mul _ ih =>
    obtain ⟨f, hf, hs⟩ := mem_symbolsOfList.1 hs
    exact ih f hf hs
  | pow _ _ ih => exact ih hs

end Build

end Expr

theorem Affine.defined_toExpr {ρ : String → Option Int} {a : Affine} (ha : a.Reduced)
    (hs : ∀ s, a.coeff s ≠ 0 → (ρ s).isSome = true) : a.toExpr.value.Defined ρ := by
  have hterms : ∀ t ∈ a.terms.entries.map termToExpr, t.Defined ρ := by
    intro t ht
    obtain ⟨e, he, rfl⟩ := List.mem_map.1 ht
    have hfind : a.terms.find? e.1 = some e.2 := OrdMap.find?_eq_some_iff.2 he
    have hsym : (Expr.sym e.1).Defined ρ := by
      apply Expr.Defined.sym
      apply hs
      rw [coeff, hfind, Option.getD_some]
      intro hzero
      exact ha e.1 (hzero ▸ hfind)
    unfold termToExpr
    split
    · exact hsym
    · apply Expr.Defined.mul
      simp [hsym, Expr.Defined.num]
  unfold toExpr
  apply Expr.defined_sum
  intro t ht
  split at ht
  · rcases List.mem_append.1 ht with ht | ht
    · exact hterms t ht
    · rw [List.mem_singleton.1 ht]
      exact .num a.constant
  · exact hterms t ht

namespace Expr

variable {ρ : String → Option Int}

theorem Defined.difference {a b : Expr} (ha : a.Defined ρ) (hb : b.Defined ρ) :
    (a.difference b).value.Defined ρ := by
  unfold Expr.difference
  split
  · exact .num 0
  · simp only [Checked.value_bind]
    split
    · next x y hx hy =>
      apply Affine.defined_toExpr (Affine.reduced_sub (Affine.reduced_ofExpr a hx) y)
      intro s hs
      -- A scalar that is left over occurs in one of the two expressions.
      rw [Affine.coeff_sub] at hs
      by_cases hsa : s ∈ a.symbols
      · exact ha.isSome_of_mem_symbols hsa
      · rw [Affine.coeff_ofExpr a hx hsa, zero_sub, neg_ne_zero] at hs
        apply hb.isSome_of_mem_symbols
        by_contra hsb
        exact hs (Affine.coeff_ofExpr b hy hsb)
    · apply defined_sum
      simp [ha, hb.neg]

theorem defined_replace {σ : Expr → Option Expr}
    (hσ : ∀ a b, σ a = some b → ∀ v, a.evaluate ρ = pure (some v) →
      b.evaluate ρ = pure (some v)) {e : Expr} :
    ∀ v, e.evaluate ρ = pure (some v) → (replace σ e).fits = true →
      (replace σ e).value.Defined ρ ∧ (replace σ e).value.total ρ = v := by
  have hargs {es : List Expr} {vs : List Rat}
      (ih : ∀ e ∈ es, ∀ v, e.evaluate ρ = pure (some v) → (replace σ e).fits = true →
        (replace σ e).value.Defined ρ ∧ (replace σ e).value.total ρ = v)
      (hvs : List.Forall₂ (fun e v => e.evaluate ρ = pure (some v)) es vs)
      (hfits : (replaceList σ es).fits = true) :
      (∀ e ∈ es.map fun e => (replace σ e).value, e.Defined ρ) ∧
        (es.map fun e => (replace σ e).value).map (total ρ) = vs := by
    have hall : List.Forall₂ (fun e v => (replace σ e).value.Defined ρ ∧
        (replace σ e).value.total ρ = v) es vs :=
      forall₂_imp_of_mem hvs fun e he v _ hv => ih e he v hv (fits_replaceList.1 hfits e he)
    constructor
    · rw [List.forall_mem_map]
      intro e he
      obtain ⟨v, -, hv⟩ := exists_mem_right hall he
      exact hv.1
    · rw [← List.forall₂_eq_eq_eq, List.forall₂_map_left_iff, List.forall₂_map_left_iff]
      exact hall.imp fun _ _ hv => hv.2
  induction e using replace_induct (σ := σ) with
  | found e e' hfound => exact fun v hv _ => defined_of_evaluate (hσ e e' hfound v hv)
  | leaf e _ _ => exact fun v hv _ => defined_of_evaluate hv
  | add ts hnone ih =>
    intro v hv hfits
    simp only [replace, hnone, Checked.fits_bind, Bool.and_eq_true] at hfits
    obtain ⟨vs, hvs, rfl⟩ := evaluateSum_eq_pure hv
    obtain ⟨hdefined, hvalues⟩ := hargs ih hvs hfits.1
    exact ⟨defined_sum hdefined, by rw [total, denote_sum, zero_add, ← hvalues]; rfl⟩
  | mul fs hnone ih =>
    intro v hv hfits
    simp only [replace, hnone, Checked.fits_bind, Bool.and_eq_true] at hfits
    obtain ⟨vs, hvs, rfl⟩ := evaluateProduct_eq_pure hv
    obtain ⟨hdefined, hvalues⟩ := hargs ih hvs hfits.1
    exact ⟨defined_product hdefined, by rw [total, denote_product, one_mul, ← hvalues]; rfl⟩
  | pow b n hnone ih =>
    intro v hv hfits
    simp only [replace, hnone, Checked.fits_bind, Bool.and_eq_true] at hfits
    obtain ⟨u, hu, hpole, rfl⟩ := evaluate_pow_eq_pure hv
    obtain ⟨hdefined, rfl⟩ := ih u hu hfits.1
    exact ⟨hdefined.power hpole, total_power hpole hfits.2⟩
  | call s as _ _ =>
    intro v hv
    cases (Checked.eq_pure_iff.1 hv).2

end Expr

namespace Formula

variable {ρ : String → Option Int}

mutual

/--
The value of a formula as it is written. Formulas that read arrays, call functions or contain
decimal fractions have none.
-/
def reading (ρ : String → Option Int) : Formula → Option Rat
  | int i => some i
  | float _ => none
  | name s => (ρ s).map fun v : Int => (v : Rat)
  | access _ _ => none
  | add as => (readings ρ as).map List.sum
  | mul as => (readings ρ as).map List.prod
  | neg a => (reading ρ a).map Neg.neg
  | pow b n => (reading ρ b).bind fun v => if v = 0 ∧ n < 0 then none else some (v ^ n)
  | call _ _ => none

def readings (ρ : String → Option Int) : List Formula → Option (List Rat)
  | [] => some []
  | a :: as => (reading ρ a).bind fun v => (readings ρ as).map (v :: ·)

end

mutual

theorem exists_toExpr (t : SymbolTable) (a : Formula) {v : Rat} (h : a.reading ρ = some v) :
    ∃ e, (toExpr t a).run.value = .ok e ∧
      ((toExpr t a).run.fits = true → e.Defined ρ ∧ e.total ρ = v) := by
  cases a with
  | int i =>
    obtain rfl := Option.some.inj h
    exact ⟨.ofInt i, rfl, fun _ => ⟨.num i, Rat.cast_id _⟩⟩
  | float x => cases h
  | name s =>
    obtain ⟨i, hi, rfl⟩ := Option.map_eq_some_iff.1 h
    exact ⟨.sym s, rfl, fun _ => ⟨.sym (by rw [hi]; rfl), by simp [Expr.total, Expr.denote, hi]⟩⟩
  | access f is => cases h
  | add as =>
    obtain ⟨vs, hvs, rfl⟩ := Option.map_eq_some_iff.1 h
    obtain ⟨es, hes, hdefined⟩ := exists_toExprs t as hvs
    refine ⟨(Expr.sum es).value, Analysis.value_bind_of_ok hes, fun hfits => ?_⟩
    obtain ⟨hall, hvalues⟩ := hdefined (Analysis.fits_of_fits_bind hfits)
    exact ⟨Expr.defined_sum hall, by rw [Expr.total, Expr.denote_sum, ← hvalues]; rfl⟩
  | mul as =>
    obtain ⟨vs, hvs, rfl⟩ := Option.map_eq_some_iff.1 h
    obtain ⟨es, hes, hdefined⟩ := exists_toExprs t as hvs
    refine ⟨(Expr.product es).value, Analysis.value_bind_of_ok hes, fun hfits => ?_⟩
    obtain ⟨hall, hvalues⟩ := hdefined (Analysis.fits_of_fits_bind hfits)
    exact ⟨Expr.defined_product hall, by rw [Expr.total, Expr.denote_product, ← hvalues]; rfl⟩
  | neg a =>
    obtain ⟨u, hu, rfl⟩ := Option.map_eq_some_iff.1 h
    obtain ⟨e, he, hdefined⟩ := exists_toExpr t a hu
    refine ⟨(Expr.neg e).value, Analysis.value_bind_of_ok he, fun hfits => ?_⟩
    obtain ⟨ha, rfl⟩ := hdefined (Analysis.fits_of_fits_bind hfits)
    exact ⟨ha.neg, Expr.denote_neg ..⟩
  | pow b n =>
    obtain ⟨u, hu, hpow⟩ := Option.bind_eq_some_iff.1 h
    obtain ⟨e, he, hdefined⟩ := exists_toExpr t b hu
    refine ⟨(Expr.power e n).value, Analysis.value_bind_of_ok he, fun hfits => ?_⟩
    obtain ⟨hb, rfl⟩ := hdefined (Analysis.fits_of_fits_bind hfits)
    rw [toExpr, Analysis.fits_bind_of_ok he, Bool.and_eq_true, Analysis.fits_lift] at hfits
    split at hpow
    · cases hpow
    · next hpole =>
      obtain rfl := Option.some.inj hpow
      exact ⟨hb.power hpole, Expr.total_power hpole hfits.2⟩
  | call s as => cases h

theorem exists_toExprs (t : SymbolTable) (as : List Formula) {vs : List Rat}
    (h : readings ρ as = some vs) :
    ∃ es, (toExprs t as).run.value = .ok es ∧ ((toExprs t as).run.fits = true →
      (∀ e ∈ es, e.Defined ρ) ∧ es.map (Expr.total ρ) = vs) := by
  cases as with
  | nil =>
    obtain rfl := Option.some.inj h
    exact ⟨[], rfl, fun _ => ⟨by simp, rfl⟩⟩
  | cons a as =>
    obtain ⟨v, hv, hrest⟩ := Option.bind_eq_some_iff.1 h
    obtain ⟨vs', hvs', rfl⟩ := Option.map_eq_some_iff.1 hrest
    obtain ⟨e, he, hdefined⟩ := exists_toExpr t a hv
    obtain ⟨es, hes, hall⟩ := exists_toExprs t as hvs'
    refine ⟨e :: es, ?_, fun hfits => ?_⟩
    · rw [toExprs, Analysis.value_bind_of_ok he, Analysis.value_bind_of_ok hes]
      rfl
    · rw [toExprs, Analysis.fits_bind_of_ok he, Bool.and_eq_true] at hfits
      obtain ⟨hhead, rfl⟩ := hdefined hfits.1
      obtain ⟨htail, rfl⟩ := hall (Analysis.fits_of_fits_bind hfits.2)
      exact ⟨List.forall_mem_cons.2 ⟨hhead, htail⟩, rfl⟩

end

end Formula

namespace Expr

variable {ρ : String → Option Int}

theorem answers_of_defined {x : Checked Expr} {v : Rat}
    (h : x.fits = true → x.value.Defined ρ ∧ x.value.total ρ = v) :
    (x >>= evaluate ρ).Answers (some v) := by
  intro hfits
  rw [Checked.fits_bind, Bool.and_eq_true] at hfits
  obtain ⟨hdefined, rfl⟩ := h hfits.1
  rw [Checked.eq_pure_iff, Checked.fits_bind, Checked.value_bind, hfits.1, hfits.2,
    hdefined.answers_evaluate hfits.2]
  exact ⟨rfl, rfl⟩

/--
Sums, products, powers and differences have the values that they should have, replacing expressions
by others of the same value keeps the value, and a formula stands for an expression with the value
that can be read off it, all as far as the arithmetic stays in range.
-/
theorem answers_operations :
    (∀ es vs, List.Forall₂ (fun e v => e.evaluate ρ = pure (some v)) es vs →
      (sum es >>= evaluate ρ).Answers (some vs.sum) ∧
        (product es >>= evaluate ρ).Answers (some vs.prod)) ∧
    (∀ b v n, b.evaluate ρ = pure (some v) → v ≠ 0 ∨ 0 ≤ n →
      (power b n >>= evaluate ρ).Answers (some (v ^ n))) ∧
    (∀ a b u v, a.evaluate ρ = pure (some u) → b.evaluate ρ = pure (some v) →
      (difference a b >>= evaluate ρ).Answers (some (u - v))) ∧
    (∀ σ : Expr → Option Expr, (∀ a b, σ a = some b → ∀ v, a.evaluate ρ = pure (some v) →
        b.evaluate ρ = pure (some v)) →
      ∀ e v, e.evaluate ρ = pure (some v) → (replace σ e >>= evaluate ρ).Answers (some v)) ∧
    (∀ t formula v, Formula.reading ρ formula = some v →
      ∃ e, (Formula.toExpr t formula).run.value = .ok e ∧
        ((Formula.toExpr t formula).run.fits = true → (e.evaluate ρ).Answers (some v))) := by
  refine ⟨fun es vs h => ?_, fun b v n h hn => ?_, fun a b u v ha hb => ?_, fun σ hσ e v h => ?_,
    fun t formula v h => ?_⟩
  · have hall : ∀ e ∈ es, e.Defined ρ := by
      intro e he
      obtain ⟨v, -, hv⟩ := exists_mem_right h he
      exact (defined_of_evaluate hv).1
    have hvalues : es.map (total ρ) = vs := by
      rw [← List.forall₂_eq_eq_eq, List.forall₂_map_left_iff]
      exact h.imp fun _ _ hv => (defined_of_evaluate hv).2
    constructor
    · apply answers_of_defined
      exact fun _ => ⟨defined_sum hall, by rw [total, denote_sum, ← hvalues]; rfl⟩
    · apply answers_of_defined
      exact fun _ => ⟨defined_product hall, by rw [total, denote_product, ← hvalues]; rfl⟩
  · obtain ⟨hb, rfl⟩ := defined_of_evaluate h
    have hpole : ¬(b.total ρ = 0 ∧ n < 0) := by
      rintro ⟨hzero, hneg⟩
      rcases hn with hne | hle
      · exact hne hzero
      · omega
    apply answers_of_defined
    exact fun hfits => ⟨hb.power hpole, total_power hpole hfits⟩
  · obtain ⟨hdefineda, rfl⟩ := defined_of_evaluate ha
    obtain ⟨hdefinedb, rfl⟩ := defined_of_evaluate hb
    apply answers_of_defined
    exact fun hfits => ⟨hdefineda.difference hdefinedb, denote_difference _ _ hfits⟩
  · apply answers_of_defined
    exact defined_replace hσ v h
  · obtain ⟨e, he, hdefined⟩ := Formula.exists_toExpr t formula h
    refine ⟨e, he, fun hfits => ?_⟩
    obtain ⟨he, rfl⟩ := hdefined hfits
    exact he.answers_evaluate

/-- The fraction `x / (x - 3)` where `x` is five. -/
theorem answers_operations_quotient :
    let ρ : String → Option Int := fun s => if s = "x" then some 5 else none
    (sum [quotient, .num (1 / 2)] >>= evaluate ρ) = pure (some 3) ∧
      (product [.num 0, quotient] >>= evaluate ρ) = pure (some 0) ∧
      (power quotient (-2) >>= evaluate ρ) = pure (some (4 / 25)) ∧
      (difference quotient (.sym "x") >>= evaluate ρ) = pure (some (-5 / 2)) ∧
      (replace (fun e => if e = .sym "x" then some (.num 5) else none) quotient >>= evaluate ρ) =
        pure (some (5 / 2)) ∧
      ∃ e, (Formula.toExpr .empty
          (.mul [.name "x", .pow (.add [.name "x", .int (-3)]) (-1)])).run.value = .ok e ∧
        e.evaluate ρ = pure (some (5 / 2)) := by
  intro ρ
  have hvalue : quotient.evaluate ρ = pure (some (5 / 2)) := by decide +kernel
  have hput (a b : Expr) (h : (if a = .sym "x" then some (.num 5) else none) = some b) (v : Rat)
      (hv : a.evaluate ρ = pure (some v)) : b.evaluate ρ = pure (some v) := by
    split at h
    · next ha =>
      obtain rfl := Option.some.inj h
      rw [← hv, ha]
      decide +kernel
    · cases h
  obtain ⟨hlists, hpower, hdifference, hreplace, hformula⟩ := answers_operations (ρ := ρ)
  have hsum := (hlists [quotient, .num (1 / 2)] [5 / 2, 1 / 2] (.cons hvalue (.cons rfl .nil))).1
  have hproduct := (hlists [.num 0, quotient] [0, 5 / 2] (.cons rfl (.cons hvalue .nil))).2
  have hpower := hpower quotient (5 / 2) (-2) hvalue (.inl (by decide +kernel))
  have hdifference := hdifference quotient (.sym "x") (5 / 2) 5 hvalue (by decide +kernel)
  obtain ⟨e, he, hanswers⟩ := hformula .empty
    (.mul [.name "x", .pow (.add [.name "x", .int (-3)]) (-1)]) (5 / 2) (by decide +kernel)
  have hfits : (Formula.toExpr .empty
      (.mul [.name "x", .pow (.add [.name "x", .int (-3)]) (-1)])).run.value.map
        (fun e => (e.evaluate ρ).fits) = .ok true := by
    decide +kernel
  rw [he] at hfits
  rw [hsum (by decide +kernel), hproduct (by decide +kernel), hpower (by decide +kernel),
    hdifference (by decide +kernel), hreplace _ hput _ _ hvalue (by decide +kernel)]
  refine ⟨by norm_num, by norm_num, by norm_num, by norm_num, rfl, e, he, ?_⟩
  exact hanswers (by decide +kernel) (Except.ok.inj hfits)

end Expr

end Stencil
