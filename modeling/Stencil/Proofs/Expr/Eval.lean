import Stencil.Expr.Eval
import Stencil.Proofs.Expr.Within

/-!
This module contains what the value of an expression depends on, the values of its scalars, and the
fact that the value, if there is one, is what the expression denotes.
-/

namespace Stencil

namespace Expr

variable {ρ ρ' : String → Option Int}

theorem evaluateSum_congr {es : List Expr} (h : ∀ e ∈ es, e.evaluate ρ = e.evaluate ρ')
    (acc : Rat) : evaluateSum ρ acc es = evaluateSum ρ' acc es := by
  induction es generalizing acc with
  | nil => rfl
  | cons e es ih =>
    rw [List.forall_mem_cons] at h
    rw [evaluateSum, evaluateSum, h.1]
    apply bind_congr
    rintro (_ | v)
    · rfl
    · exact bind_congr fun acc => ih h.2 acc

theorem evaluateProduct_congr {es : List Expr} (h : ∀ e ∈ es, e.evaluate ρ = e.evaluate ρ')
    (acc : Rat) : evaluateProduct ρ acc es = evaluateProduct ρ' acc es := by
  induction es generalizing acc with
  | nil => rfl
  | cons e es ih =>
    rw [List.forall_mem_cons] at h
    rw [evaluateProduct, evaluateProduct, h.1]
    apply bind_congr
    rintro (_ | v)
    · rfl
    · exact bind_congr fun acc => ih h.2 acc

theorem evaluate_congr {e : Expr} (h : ∀ s ∈ e.symbols, ρ s = ρ' s) :
    e.evaluate ρ = e.evaluate ρ' := by
  induction e using args_induct with
  | leaf e he =>
    cases e with
    | sym s => rw [evaluate, evaluate, h s (List.mem_singleton_self s)]
    | num q => rfl
    | access f is => rfl
    | _ => cases he
  | operation e he ih =>
    have hargs : ∀ a ∈ e.args, a.evaluate ρ = a.evaluate ρ' := by
      intro a ha
      apply ih a ha
      intro s hs
      apply h
      rw [symbols_eq he]
      exact List.mem_flatMap.2 ⟨a, ha, hs⟩
    cases e with
    | add ts => exact evaluateSum_congr hargs 0
    | mul fs => exact evaluateProduct_congr hargs 1
    | pow b n => rw [evaluate, evaluate, hargs b (List.mem_singleton_self b)]
    | call s as => rfl
    | _ => cases he

theorem evaluateSum_eq_pure {es : List Expr} {acc v : Rat}
    (h : evaluateSum ρ acc es = pure (some v)) :
    ∃ vs, List.Forall₂ (fun e u => e.evaluate ρ = pure (some u)) es vs ∧ v = acc + vs.sum := by
  induction es generalizing acc with
  | nil =>
    obtain rfl := Option.some.inj (Checked.eq_pure_iff.1 h).2
    exact ⟨[], .nil, by simp⟩
  | cons e es ih =>
    simp only [evaluateSum, Checked.eq_pure_iff, Checked.fits_bind, Checked.value_bind,
      Bool.and_eq_true] at h
    cases he : (e.evaluate ρ).value with
    | none => simp [he] at h
    | some u =>
      simp only [he, Checked.fits_bind, Checked.value_bind, Bool.and_eq_true,
        Fraction.value_add] at h
      obtain ⟨vs, hvs, rfl⟩ := ih (Checked.eq_pure_iff.2 ⟨h.1.2.2, h.2⟩)
      refine ⟨u :: vs, .cons (Checked.eq_pure_iff.2 ⟨h.1.1, he⟩) hvs, ?_⟩
      rw [List.sum_cons, add_assoc]

theorem evaluateProduct_eq_pure {es : List Expr} {acc v : Rat}
    (h : evaluateProduct ρ acc es = pure (some v)) :
    ∃ vs, List.Forall₂ (fun e u => e.evaluate ρ = pure (some u)) es vs ∧ v = acc * vs.prod := by
  induction es generalizing acc with
  | nil =>
    obtain rfl := Option.some.inj (Checked.eq_pure_iff.1 h).2
    exact ⟨[], .nil, by simp⟩
  | cons e es ih =>
    simp only [evaluateProduct, Checked.eq_pure_iff, Checked.fits_bind, Checked.value_bind,
      Bool.and_eq_true] at h
    cases he : (e.evaluate ρ).value with
    | none => simp [he] at h
    | some u =>
      simp only [he, Checked.fits_bind, Checked.value_bind, Bool.and_eq_true,
        Fraction.value_mul] at h
      obtain ⟨vs, hvs, rfl⟩ := ih (Checked.eq_pure_iff.2 ⟨h.1.2.2, h.2⟩)
      refine ⟨u :: vs, .cons (Checked.eq_pure_iff.2 ⟨h.1.1, he⟩) hvs, ?_⟩
      rw [List.prod_cons, mul_assoc]

theorem evaluate_pow_eq_pure {b : Expr} {n : Int} {v : Rat}
    (h : (pow b n).evaluate ρ = pure (some v)) :
    ∃ u, b.evaluate ρ = pure (some u) ∧ ¬(u = 0 ∧ n < 0) ∧ v = u ^ n := by
  simp only [evaluate, Checked.eq_pure_iff, Checked.fits_bind, Checked.value_bind,
    Bool.and_eq_true] at h
  cases hb : (b.evaluate ρ).value with
  | none => simp [hb] at h
  | some u =>
    simp only [hb] at h
    refine ⟨u, Checked.eq_pure_iff.2 ⟨h.1.1, hb⟩, ?_⟩
    split at h
    · simp at h
    · next hpole =>
      simp only [Checked.fits_bind, Checked.value_bind, Checked.value_pure, Checked.fits_pure,
        Bool.and_true, Option.some.injEq] at h
      exact ⟨hpole, by rw [← h.2, Fraction.value_pow h.1.2]⟩

/--
Induction over the evaluation of an expression that has a value. Sums and products have the values
of all their arguments, and powers have no pole.
-/
theorem evaluate_induct {motive : Expr → Rat → Prop}
    (num : ∀ q, motive (num q) q)
    (sym : ∀ s i, ρ s = some i → motive (sym s) i)
    (add : ∀ ts vs, List.Forall₂ motive ts vs → motive (add ts) vs.sum)
    (mul : ∀ fs vs, List.Forall₂ motive fs vs → motive (mul fs) vs.prod)
    (pow : ∀ b n u, motive b u → ¬(u = 0 ∧ n < 0) → motive (pow b n) (u ^ n))
    {e : Expr} {v : Rat} (h : e.evaluate ρ = pure (some v)) : motive e v := by
  have hlist {es : List Expr} {vs : List Rat}
      (ih : ∀ e ∈ es, ∀ {v}, e.evaluate ρ = pure (some v) → motive e v)
      (h : List.Forall₂ (fun e u => e.evaluate ρ = pure (some u)) es vs) :
      List.Forall₂ motive es vs :=
    forall₂_imp_of_mem h fun e he u _ hu => ih e he hu
  induction e generalizing v with
  | num q =>
    obtain rfl := Option.some.inj (Checked.eq_pure_iff.1 h).2
    exact num q
  | sym s =>
    have hvalue := (Checked.eq_pure_iff.1 h).2
    cases hs : ρ s with
    | none => simp [evaluate, hs] at hvalue
    | some i =>
      obtain rfl : (i : Rat) = v := by simpa [evaluate, hs] using hvalue
      exact sym s i hs
  | access f is => cases (Checked.eq_pure_iff.1 h).2
  | add ts ih =>
    obtain ⟨vs, hvs, rfl⟩ := evaluateSum_eq_pure h
    rw [zero_add]
    exact add ts vs (hlist ih hvs)
  | mul fs ih =>
    obtain ⟨vs, hvs, rfl⟩ := evaluateProduct_eq_pure h
    rw [one_mul]
    exact mul fs vs (hlist ih hvs)
  | pow b n ih =>
    obtain ⟨u, hu, hpole, rfl⟩ := evaluate_pow_eq_pure h
    exact pow b n u (ih hu) hpole
  | call s as => cases (Checked.eq_pure_iff.1 h).2

theorem isSome_of_evaluate {e : Expr} {v : Rat} (h : e.evaluate ρ = pure (some v)) :
    ∀ s ∈ e.symbols, (ρ s).isSome = true := by
  have hlist {es : List Expr} {vs : List Rat}
      (h : List.Forall₂ (fun e _ => ∀ s ∈ e.symbols, (ρ s).isSome = true) es vs) :
      ∀ s ∈ symbolsOfList es, (ρ s).isSome = true := by
    intro s hs
    obtain ⟨e, he, hs⟩ := mem_symbolsOfList.1 hs
    obtain ⟨u, -, hu⟩ := exists_mem_right h he
    exact hu s hs
  apply evaluate_induct (motive := fun e _ => ∀ s ∈ e.symbols, (ρ s).isSome = true) _ _ _ _ _ h
  · intro q s hs
    cases hs
  · intro s i hi t ht
    rw [List.mem_singleton.1 ht, hi]
    rfl
  · exact fun ts vs ih => hlist ih
  · exact fun fs vs ih => hlist ih
  · exact fun b n u ih _ => ih

theorem denote_of_evaluate (I : Interpretation Rat) {e : Expr} {v : Rat}
    (h : e.evaluate ρ = pure (some v)) : e.denote I (fun s => ((ρ s).getD 0 : Int)) = v := by
  have hlist {es : List Expr} {vs : List Rat}
      (h : List.Forall₂ (fun e u => e.denote I (fun s => ((ρ s).getD 0 : Int)) = u) es vs) :
      es.map (denote I fun s => ((ρ s).getD 0 : Int)) = vs := by
    rwa [← List.forall₂_eq_eq_eq, List.forall₂_map_left_iff]
  apply evaluate_induct
    (motive := fun e u => e.denote I (fun s => ((ρ s).getD 0 : Int)) = u) _ _ _ _ _ h
  · exact fun q => Rat.cast_id q
  · intro s i hi
    rw [denote, hi, Option.getD_some]
  · intro ts vs ih
    rw [denote, denoteAll_eq_map, hlist ih]
  · intro fs vs ih
    rw [denote, denoteAll_eq_map, hlist ih]
  · intro b n u ih hpole
    rw [denote, ih, Interpretation.power, if_neg hpole]

end Expr

end Stencil
