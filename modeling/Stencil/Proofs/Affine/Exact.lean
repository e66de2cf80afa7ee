import Stencil.Proofs.Affine.Denote
import Stencil.Proofs.Expr.Eval

/-!
This module contains the fact that affine forms are exact: the form of an expression has the value
of the expression wherever this has one, and two forms are the same if and only if they have the
same value at all integers.
-/

namespace Stencil

namespace Affine

theorem value_go {ρ : String → Option Int} (acc : Rat) {es : List (String × Rat)}
    (h : ∀ e ∈ es, (ρ e.1).isSome = true) :
    (evaluate.go ρ acc es).value =
      some (acc + (es.map fun e => e.2 * (((ρ e.1).getD 0 : Int) : Rat)).sum) := by
  induction es generalizing acc with
  | nil => simp [evaluate.go]
  | cons e es ih =>
    rw [List.forall_mem_cons] at h
    obtain ⟨i, hi⟩ := Option.isSome_iff_exists.1 h.1
    simp only [evaluate.go, hi, Checked.value_bind, Fraction.value_mul, Fraction.value_add]
    rw [ih _ h.2, List.map_cons, List.sum_cons, hi, add_assoc]
    rfl

theorem value_evaluate {ρ : String → Option Int} {a : Affine}
    (h : ∀ s ∈ a.symbols, (ρ s).isSome = true) :
    (a.evaluate ρ).value = some (a.denote fun s => (((ρ s).getD 0 : Int) : Rat)) := by
  unfold evaluate denote
  rw [value_go a.constant]
  · simp
  · exact fun e he => h e.1 (List.mem_map_of_mem he)

theorem denote_zero (a : Affine) : a.denote (fun _ => (0 : Rat)) = a.constant := by
  simp [denote]

theorem denote_unit (a : Affine) (s : String) :
    a.denote (fun t => if t = s then (1 : Rat) else 0) = a.constant + a.coeff s := by
  rw [denote_eq_sum _ a (S := insert s a.symbols.toFinset) (by simp +contextual)]
  simp

theorem ext_denote {a b : Affine} (ha : a.Reduced) (hb : b.Reduced)
    (h : ∀ ρ : String → Int, a.denote (fun s => (ρ s : Rat)) = b.denote fun s => (ρ s : Rat)) :
    a = b := by
  have hconstant : a.constant = b.constant := by
    have hzero := h fun _ => 0
    simpa only [Int.cast_zero, denote_zero] using hzero
  apply ext_coeff ha hb hconstant
  intro s
  have hunit := h fun t => if t = s then 1 else 0
  simp only [Int.cast_ite, Int.cast_one, Int.cast_zero, denote_unit, hconstant] at hunit
  exact add_left_cancel hunit

theorem mem_symbols_of_ofExpr {e : Expr} {a : Affine} (h : (ofExpr e).value = some a) {s : String}
    (hs : s ∈ a.symbols) : s ∈ e.symbols := by
  apply Classical.byContradiction
  intro hnot
  have hzero := coeff_ofExpr e h hnot
  rw [coeff_eq_zero_iff (reduced_ofExpr e h), OrdMap.find?_eq_none_iff] at hzero
  exact hzero hs

theorem eq_iff_denote {e₁ e₂ : Expr} {a₁ a₂ : Affine} (h₁ : ofExpr e₁ = pure (some a₁))
    (h₂ : ofExpr e₂ = pure (some a₂)) (I : Interpretation Rat) :
    a₁ = a₂ ↔ ∀ ρ : String → Int,
      e₁.denote I (fun s => (ρ s : Rat)) = e₂.denote I fun s => (ρ s : Rat) := by
  rw [Checked.eq_pure_iff] at h₁ h₂
  simp only [denote_ofExpr I _ _ h₁.1 h₁.2, denote_ofExpr I _ _ h₂.1 h₂.2]
  constructor
  · rintro rfl ρ
    rfl
  · exact ext_denote (reduced_ofExpr e₁ h₁.2) (reduced_ofExpr e₂ h₂.2)

/--
The affine form of an expression stores no zero, has the value of the expression wherever this has
one, and is the form of another expression if and only if both have the same value at all integers.
There are no array elements, calls or poles in affine expressions, so the interpretation of these
does not matter.
-/
theorem ofExpr_exact {e₁ e₂ : Expr} {a₁ a₂ : Affine} (h₁ : ofExpr e₁ = pure (some a₁))
    (h₂ : ofExpr e₂ = pure (some a₂)) :
    a₁.Reduced ∧
      (∀ ρ v, e₁.evaluate ρ = pure (some v) → (a₁.evaluate ρ).value = some v) ∧
      ∀ I : Interpretation Rat, a₁ = a₂ ↔ ∀ ρ : String → Int,
        e₁.denote I (fun s => (ρ s : Rat)) = e₂.denote I fun s => (ρ s : Rat) := by
  obtain ⟨hfits, hvalue⟩ := Checked.eq_pure_iff.1 h₁
  refine ⟨reduced_ofExpr e₁ hvalue, ?_, eq_iff_denote h₁ h₂⟩
  intro ρ v hv
  have hsome (s : String) (hs : s ∈ a₁.symbols) : (ρ s).isSome = true :=
    Expr.isSome_of_evaluate hv s (mem_symbols_of_ofExpr hvalue hs)
  -- No pole, element or call was met, so any interpretation will do.
  rw [value_evaluate hsome, ← denote_ofExpr default _ e₁ hfits hvalue,
    Expr.denote_of_evaluate default hv]

/-- The expression `2 (x + 1/2) - x`. -/
def doubled : Expr :=
  .add [.mul [.num 2, .add [.num (1 / 2), .sym "x"]], .mul [.num (-1), .sym "x"]]

def successor : Affine := ⟨1, OrdMap.empty.insert "x" 1⟩

theorem ofExpr_exact_doubled :
    ofExpr doubled = pure (some successor) ∧ successor.Reduced ∧
      (successor.evaluate fun s => if s = "x" then some 3 else none).value = some 4 ∧
      ∀ (I : Interpretation Rat) (ρ : String → Int), doubled.denote I (fun s => (ρ s : Rat)) =
        (Expr.add [.num 1, .sym "x"]).denote I fun s => (ρ s : Rat) := by
  have hdoubled : ofExpr doubled = pure (some successor) := by decide +kernel
  have hsuccessor : ofExpr (.add [.num 1, .sym "x"]) = pure (some successor) := by decide +kernel
  have hvalue : (doubled.evaluate fun s => if s = "x" then some 3 else none) = pure (some 4) := by
    decide +kernel
  obtain ⟨hreduced, hevaluate, hdenote⟩ := ofExpr_exact hdoubled hsuccessor
  exact ⟨hdoubled, hreduced, hevaluate _ 4 hvalue, fun I => (hdenote I).1 rfl⟩

end Affine

end Stencil
