import Mathlib.Algebra.BigOperators.Group.List.Basic
import Mathlib.Data.Rat.Cast.CharZero
import Stencil.Expr.Build
import Stencil.Proofs.Analysis
import Stencil.Proofs.Fraction

/-!
This module contains the value that an expression denotes in a field, and the fact that the
operations that build expressions keep it. Array elements, calls and negative powers of zero have no
value of their own: what they stand for is given by an interpretation.
-/

namespace Stencil

/--
What array elements, calls and negative powers of zero stand for. An element and a call may depend
on the values of their arguments as well as on the arguments as they are written.
-/
structure Interpretation (K : Type) where
  element : GridFunction → List Expr → List K → K
  call : String → List Expr → List K → K
  pole : Int → K

instance {K : Type} [Zero K] : Inhabited (Interpretation K) :=
  ⟨fun _ _ _ => 0, fun _ _ _ => 0, fun _ => 0⟩

section Sorting

universe u

variable {α : Type u}

theorem insertBy_perm (le : α → α → Bool) (a : α) (as : List α) :
    (insertBy le a as).Perm (a :: as) := by
  induction as with
  | nil => exact .refl _
  | cons b bs ih =>
    simp only [insertBy]
    split
    · exact .refl _
    · exact (ih.cons b).trans (.swap a b bs)

theorem sortBy_perm (le : α → α → Bool) (as : List α) : (sortBy le as).Perm as := by
  induction as with
  | nil => exact .refl _
  | cons a as ih => exact (insertBy_perm le a _).trans (ih.cons a)

end Sorting

namespace Expr

theorem sort_perm (es : List Expr) : (sort es).Perm es := sortBy_perm _ es

theorem isNumber_iff {e : Expr} : e.isNumber = true ↔ ∃ q, e = num q := by
  cases e <;> simp [isNumber]

theorem foldNumbers_cons_of_not {op : Rat → Rat → Checked Rat} {c : Rat} {e : Expr}
    {es : List Expr} (h : e.isNumber = false) :
    foldNumbers op c (e :: es) = foldNumbers op c es := by
  cases e <;> simp_all [foldNumbers, isNumber]

section Additive

variable {M : Type} [AddCommMonoid M]

structure Additive (φ : Expr → M) : Prop where
  zero : φ (num 0) = 0
  number (p q : Rat) : φ (num (p + q)) = φ (num p) + φ (num q)
  add (ts : List Expr) : φ (add ts) = (ts.map φ).sum

namespace Additive

variable {φ : Expr → M} (h : Additive φ)

include h

theorem terms (e : Expr) : (e.terms.map φ).sum = φ e := by
  cases e with
  | add ts => exact (h.add ts).symm
  | _ => simp [Expr.terms]

theorem flatMap_terms (es : List Expr) :
    ((es.flatMap Expr.terms).map φ).sum = (es.map φ).sum := by
  induction es with
  | nil => rfl
  | cons e es ih => simp [ih, h.terms]

theorem ofTerms (c : Rat) (ts : List Expr) :
    φ (ofTerms c ts) = φ (num c) + (ts.map φ).sum := by
  have hsum : ((sort (if c = 0 then ts else ts ++ [num c])).map φ).sum =
      φ (num c) + (ts.map φ).sum := by
    rw [((sort_perm _).map _).sum_eq]
    split
    · next hc => simp [hc, h.zero]
    · simp [add_comm]
  unfold Expr.ofTerms
  rw [← hsum]
  split <;> simp_all [h.zero, h.add]

theorem foldNumbers (c : Rat) (es : List Expr) :
    φ (num (foldNumbers Fraction.add c es).value) + ((es.filter (!·.isNumber)).map φ).sum =
      φ (num c) + (es.map φ).sum := by
  induction es generalizing c with
  | nil => simp [Expr.foldNumbers]
  | cons e es ih =>
    cases he : e.isNumber with
    | true =>
      obtain ⟨q, rfl⟩ := isNumber_iff.1 he
      rw [List.filter_cons_of_neg (by simp [he]), Expr.foldNumbers, Checked.value_bind, ih,
        Fraction.value_add, h.number, add_assoc, List.map_cons, List.sum_cons]
    | false =>
      rw [List.filter_cons_of_pos (by simp [he]), foldNumbers_cons_of_not he, List.map_cons,
        List.sum_cons, add_left_comm, ih, add_left_comm, List.map_cons, List.sum_cons]

theorem sum (es : List Expr) : φ (sum es).value = (es.map φ).sum := by
  simp only [Expr.sum, Checked.value_bind, Checked.value_pure]
  rw [h.ofTerms, h.foldNumbers, h.flatMap_terms, h.zero, zero_add]

end Additive

end Additive

end Expr

variable {K : Type} [Field K] [DecidableEq K]

def Interpretation.power (I : Interpretation K) (b : K) (n : Int) : K :=
  if b = 0 ∧ n < 0 then I.pole n else b ^ n

namespace Expr

mutual

def denote (I : Interpretation K) (ρ : String → K) : Expr → K
  | num q => q
  | sym s => ρ s
  | access f is => I.element f is (denoteAll I ρ is)
  | add ts => (denoteAll I ρ ts).sum
  | mul fs => (denoteAll I ρ fs).prod
  | pow b n => I.power (denote I ρ b) n
  | call s as => I.call s as (denoteAll I ρ as)

def denoteAll (I : Interpretation K) (ρ : String → K) : List Expr → List K
  | [] => []
  | e :: es => denote I ρ e :: denoteAll I ρ es

end

variable (I : Interpretation K) (ρ : String → K)

attribute [local simp] denote denoteAll

@[simp]
theorem denoteAll_eq_map (es : List Expr) : denoteAll I ρ es = es.map (denote I ρ) := by
  induction es with
  | nil => rfl
  | cons e es ih => simp [ih]

theorem prod_factors (e : Expr) : (e.factors.map (denote I ρ)).prod = e.denote I ρ := by
  cases e <;> simp [factors]

theorem prod_flatMap_factors (es : List Expr) :
    ((es.flatMap factors).map (denote I ρ)).prod = (es.map (denote I ρ)).prod := by
  induction es with
  | nil => rfl
  | cons e es ih => simp [ih, prod_factors]

theorem denote_ofFactors (c : Rat) (fs : List Expr) :
    (ofFactors c fs).denote I ρ = c * (fs.map (denote I ρ)).prod := by
  have hprod : ((sort (if c = 1 then fs else fs ++ [num c])).map (denote I ρ)).prod =
      c * (fs.map (denote I ρ)).prod := by
    rw [((sort_perm _).map _).prod_eq]
    split
    · next hc => simp [hc]
    · simp [mul_comm]
  unfold ofFactors
  split
  · next hc => simp [hc]
  · rw [← hprod]
    split <;> simp_all

section CharZero

variable [CharZero K]

theorem foldNumbers_mul (c : Rat) (es : List Expr) :
    ((foldNumbers Fraction.mul c es).value : K) *
        ((es.filter (!·.isNumber)).map (denote I ρ)).prod =
      c * (es.map (denote I ρ)).prod := by
  induction es generalizing c with
  | nil => simp [foldNumbers]
  | cons e es ih =>
    cases he : e.isNumber with
    | true =>
      obtain ⟨q, rfl⟩ := isNumber_iff.1 he
      rw [List.filter_cons_of_neg (by simp [he]), foldNumbers, Checked.value_bind, ih,
        Fraction.value_mul, Rat.cast_mul, mul_assoc, List.map_cons, List.prod_cons, denote]
    | false =>
      rw [List.filter_cons_of_pos (by simp [he]), foldNumbers_cons_of_not he, List.map_cons,
        List.prod_cons, mul_left_comm, ih, mul_left_comm, List.map_cons, List.prod_cons]

theorem additive_denote : Additive (denote I ρ) where
  zero := by simp
  number p q := by simp
  add ts := by simp

@[simp]
theorem denote_sum (es : List Expr) :
    (sum es).value.denote I ρ = (es.map (denote I ρ)).sum :=
  (additive_denote I ρ).sum es

@[simp]
theorem denote_product (es : List Expr) :
    (product es).value.denote I ρ = (es.map (denote I ρ)).prod := by
  simp only [product, Checked.value_bind, Checked.value_pure]
  rw [denote_ofFactors, foldNumbers_mul, prod_flatMap_factors]
  simp

@[simp]
theorem denote_neg (a : Expr) : (neg a).value.denote I ρ = -a.denote I ρ := by
  simp [neg]

@[simp]
theorem denote_minus (a b : Expr) :
    (minus a b).value.denote I ρ = a.denote I ρ - b.denote I ρ := by
  simp [minus, sub_eq_add_neg]

end CharZero

end Expr

end Stencil
