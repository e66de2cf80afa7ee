import Mathlib.Algebra.BigOperators.Ring.Finset
import Mathlib.Tactic.Ring
import Stencil.Expr.Traverse
import Stencil.Proofs.Affine.Coefficients
import Stencil.Proofs.Expr.Denote

/-!
This module contains the value of an affine form. An expression that has an affine form has the
value of this form, and the difference of two expressions has the difference of their values,
whichever way it is computed.
-/

namespace Stencil

variable {K : Type} [Field K]

namespace Affine

def denote (ρ : String → K) (a : Affine) : K :=
  a.constant + (a.terms.entries.map fun e => (e.2 : K) * ρ e.1).sum

theorem denote_eq_sum (ρ : String → K) (a : Affine) {S : Finset String}
    (hS : ∀ s ∈ a.symbols, s ∈ S) :
    a.denote ρ = a.constant + ∑ s ∈ S, (a.coeff s : K) * ρ s := by
  have hlist : (a.terms.entries.map fun e => (e.2 : K) * ρ e.1) =
      a.symbols.map fun s => (a.coeff s : K) * ρ s := by
    unfold symbols OrdMap.keys
    rw [List.map_map]
    apply List.map_congr_left
    intro e he
    have hfind : a.terms.find? e.1 = some e.2 := OrdMap.find?_eq_some_iff.2 he
    simp [coeff, hfind]
  have hnodup : a.symbols.Nodup := a.terms.nodup_keys
  rw [denote, hlist, ← List.sum_toFinset _ hnodup]
  congr 1
  apply Finset.sum_subset
  · intro s hs
    exact hS s (List.mem_toFinset.1 hs)
  · intro s _ hs
    have hfind : a.terms.find? s = none :=
      OrdMap.find?_eq_none_iff.2 fun h => hs (List.mem_toFinset.2 h)
    simp [coeff, hfind]

theorem denote_of_isConstant {ρ : String → K} {a : Affine} (h : a.isConstant = true) :
    a.denote ρ = a.constant := by
  unfold isConstant OrdMap.isEmpty at h
  rw [List.isEmpty_iff] at h
  simp [denote, h]

@[simp]
theorem denote_ofConstant (ρ : String → K) (c : Rat) : (ofConstant c).denote ρ = c :=
  denote_of_isConstant rfl

@[simp]
theorem denote_ofSymbol (ρ : String → K) (s : String) : (ofSymbol s).denote ρ = ρ s := by
  simp [denote, ofSymbol, OrdMap.insert, OrdMap.alter, OrdMap.alterEntries, OrdMap.empty]

section CharZero

variable [CharZero K] (ρ : String → K)

theorem denote_add (a b : Affine) : (a.add b).value.denote ρ = a.denote ρ + b.denote ρ := by
  let S := (a.add b).value.symbols.toFinset ∪ (a.symbols.toFinset ∪ b.symbols.toFinset)
  rw [denote_eq_sum ρ (a.add b).value (S := S) (by simp +contextual [S]),
    denote_eq_sum ρ a (S := S) (by simp +contextual [S]),
    denote_eq_sum ρ b (S := S) (by simp +contextual [S])]
  simp only [constant_add, coeff_add, Rat.cast_add, add_mul, Finset.sum_add_distrib]
  ring

theorem denote_scale (a : Affine) (c : Rat) : (a.scale c).value.denote ρ = a.denote ρ * c := by
  let S := (a.scale c).value.symbols.toFinset ∪ a.symbols.toFinset
  rw [denote_eq_sum ρ (a.scale c).value (S := S) (by simp +contextual [S]),
    denote_eq_sum ρ a (S := S) (by simp +contextual [S])]
  simp only [constant_scale, coeff_scale, Rat.cast_mul, add_mul, Finset.sum_mul]
  congr 1
  apply Finset.sum_congr rfl
  intro s _
  ring

theorem denote_sub (a b : Affine) : (a.sub b).value.denote ρ = a.denote ρ - b.denote ρ := by
  simp [sub, neg, denote_add, denote_scale, sub_eq_add_neg]

theorem denote_mul {a b c : Affine} (h : (a.mul b).value = some c) :
    c.denote ρ = a.denote ρ * b.denote ρ := by
  rcases mul_eq_some h with ⟨ha, rfl⟩ | ⟨hb, rfl⟩
  · rw [denote_scale, denote_of_isConstant ha, mul_comm]
  · rw [denote_scale, denote_of_isConstant hb]

end CharZero

theorem ofSum_cons_eq_some {acc a : Affine} {e : Expr} {es : List Expr}
    (h : (ofSum acc (e :: es)).value = some a) :
    ∃ b, (ofExpr e).value = some b ∧ (ofSum (acc.add b).value es).value = some a ∧
      ((ofSum acc (e :: es)).fits = true →
        (ofExpr e).fits = true ∧ (acc.add b).fits = true ∧
          (ofSum (acc.add b).value es).fits = true) := by
  simp only [ofSum, Checked.value_bind, Checked.fits_bind] at h ⊢
  cases hb : (ofExpr e).value with
  | none => simp [hb] at h
  | some b =>
    simp only [hb, Checked.value_bind, Checked.fits_bind, Bool.and_eq_true] at h ⊢
    exact ⟨b, rfl, h, id⟩

theorem ofProduct_cons_eq_some {acc a : Affine} {e : Expr} {es : List Expr}
    (h : (ofProduct acc (e :: es)).value = some a) :
    ∃ b acc', (ofExpr e).value = some b ∧ (acc.mul b).value = some acc' ∧
      (ofProduct acc' es).value = some a ∧
      ((ofProduct acc (e :: es)).fits = true →
        (ofExpr e).fits = true ∧ (acc.mul b).fits = true ∧ (ofProduct acc' es).fits = true) := by
  simp only [ofProduct, Checked.value_bind, Checked.fits_bind] at h ⊢
  cases hb : (ofExpr e).value with
  | none => simp [hb] at h
  | some b =>
    simp only [hb, Checked.value_bind, Checked.fits_bind, Bool.and_eq_true] at h ⊢
    cases hacc : (acc.mul b).value with
    | none => simp [hacc] at h
    | some acc' =>
      simp only [hacc] at h ⊢
      exact ⟨b, acc', rfl, hacc, h, id⟩

theorem ofExpr_pow_eq_some {b : Expr} {n : Int} {a : Affine}
    (h : (ofExpr (.pow b n)).value = some a) :
    ∃ c, (ofExpr b).value = some c ∧
      ((ofExpr (.pow b n)).fits = true → (ofExpr b).fits = true) ∧
      (n = 1 ∧ a = c ∨
        c.isConstant = true ∧ (0 ≤ n ∨ c.constant ≠ 0) ∧
          a = ofConstant (Fraction.pow c.constant n).value ∧
          ((ofExpr (.pow b n)).fits = true → (Fraction.pow c.constant n).fits = true)) := by
  simp only [ofExpr, Checked.value_bind, Checked.fits_bind] at h ⊢
  cases hb : (ofExpr b).value with
  | none => simp [hb] at h
  | some c =>
    simp only [hb, Bool.and_eq_true] at h ⊢
    refine ⟨c, rfl, And.left, ?_⟩
    split at h
    · next hn => exact .inl ⟨hn, (Option.some.inj h).symm⟩
    · next hn =>
      by_cases hc : c.isConstant = true
      · simp only [toConstant?, hc, if_true, hn, if_false] at h ⊢
        split at h
        · next hpole =>
          simp only [hpole, if_true, Checked.fits_bind, Bool.and_eq_true]
          exact .inr ⟨trivial, trivial, (Option.some.inj h).symm, fun hfits => hfits.2.1⟩
        · cases h
      · simp [toConstant?, hc] at h

mutual

theorem reduced_ofExpr (e : Expr) {a : Affine} (h : (ofExpr e).value = some a) : a.Reduced := by
  cases e with
  | num q =>
    rw [← Option.some.inj h]
    apply reduced_ofConstant
  | sym s =>
    rw [← Option.some.inj h]
    apply reduced_ofSymbol
  | access f is => cases h
  | add ts => exact reduced_ofSum ts (reduced_ofConstant 0) h
  | mul fs => exact reduced_ofProduct fs (reduced_ofConstant 1) h
  | pow b n =>
    obtain ⟨c, hb, -, ⟨-, rfl⟩ | ⟨-, -, rfl, -⟩⟩ := ofExpr_pow_eq_some h
    · exact reduced_ofExpr b hb
    · apply reduced_ofConstant
  | call s as => cases h

theorem reduced_ofSum (es : List Expr) {acc a : Affine} (hacc : acc.Reduced)
    (h : (ofSum acc es).value = some a) : a.Reduced := by
  cases es with
  | nil =>
    rw [← Option.some.inj h]
    exact hacc
  | cons e es =>
    obtain ⟨b, -, hes, -⟩ := ofSum_cons_eq_some h
    exact reduced_ofSum es (reduced_add hacc b) hes

theorem reduced_ofProduct (es : List Expr) {acc a : Affine} (hacc : acc.Reduced)
    (h : (ofProduct acc es).value = some a) : a.Reduced := by
  cases es with
  | nil =>
    rw [← Option.some.inj h]
    exact hacc
  | cons e es =>
    obtain ⟨b, acc', hb, hacc', hes, -⟩ := ofProduct_cons_eq_some h
    exact reduced_ofProduct es (reduced_mul hacc (reduced_ofExpr e hb) hacc') hes

end

mutual

theorem coeff_ofExpr (e : Expr) {a : Affine} {s : String} (h : (ofExpr e).value = some a)
    (hs : s ∉ e.symbols) : a.coeff s = 0 := by
  cases e with
  | num q =>
    rw [← Option.some.inj h]
    apply coeff_ofConstant
  | sym t =>
    rw [← Option.some.inj h, coeff_ofSymbol, if_neg]
    simpa [Expr.symbols, eq_comm] using hs
  | access f is => cases h
  | add ts => exact coeff_ofSum ts (coeff_ofConstant 0 s) h hs
  | mul fs => exact coeff_ofProduct fs (coeff_ofConstant 1 s) h hs
  | pow b n =>
    obtain ⟨c, hb, -, ⟨-, rfl⟩ | ⟨-, -, rfl, -⟩⟩ := ofExpr_pow_eq_some h
    · exact coeff_ofExpr b hb hs
    · apply coeff_ofConstant
  | call t as => cases h

theorem coeff_ofSum (es : List Expr) {acc a : Affine} {s : String} (hacc : acc.coeff s = 0)
    (h : (ofSum acc es).value = some a) (hs : s ∉ Expr.symbolsOfList es) : a.coeff s = 0 := by
  cases es with
  | nil =>
    rw [← Option.some.inj h]
    exact hacc
  | cons e es =>
    obtain ⟨b, hb, hes, -⟩ := ofSum_cons_eq_some h
    rw [Expr.symbolsOfList, List.mem_append, not_or] at hs
    apply coeff_ofSum es _ hes hs.2
    rw [coeff_add, hacc, coeff_ofExpr e hb hs.1, add_zero]

theorem coeff_ofProduct (es : List Expr) {acc a : Affine} {s : String} (hacc : acc.coeff s = 0)
    (h : (ofProduct acc es).value = some a) (hs : s ∉ Expr.symbolsOfList es) : a.coeff s = 0 := by
  cases es with
  | nil =>
    rw [← Option.some.inj h]
    exact hacc
  | cons e es =>
    obtain ⟨b, acc', hb, hacc', hes, -⟩ := ofProduct_cons_eq_some h
    rw [Expr.symbolsOfList, List.mem_append, not_or] at hs
    apply coeff_ofProduct es _ hes hs.2
    rcases mul_eq_some hacc' with ⟨-, rfl⟩ | ⟨-, rfl⟩
    · rw [coeff_scale, coeff_ofExpr e hb hs.1, zero_mul]
    · rw [coeff_scale, hacc, zero_mul]

end

section Soundness

variable [DecidableEq K] [CharZero K] (I : Interpretation K) (ρ : String → K)

mutual

theorem denote_ofExpr (e : Expr) {a : Affine} (hfits : (ofExpr e).fits = true)
    (h : (ofExpr e).value = some a) : e.denote I ρ = a.denote ρ := by
  cases e with
  | num q =>
    rw [← Option.some.inj h, denote_ofConstant, Expr.denote]
  | sym s =>
    rw [← Option.some.inj h, denote_ofSymbol, Expr.denote]
  | access f is => cases h
  | add ts =>
    have hsum := denote_ofSum ts hfits h
    rw [Expr.denote, Expr.denoteAll_eq_map, ← hsum]
    simp
  | mul fs =>
    have hprod := denote_ofProduct fs hfits h
    rw [Expr.denote, Expr.denoteAll_eq_map, ← hprod]
    simp
  | pow b n =>
    obtain ⟨c, hb, hbfits, hcases⟩ := ofExpr_pow_eq_some h
    have hdenote := denote_ofExpr b (hbfits hfits) hb
    rw [Expr.denote, hdenote]
    unfold Interpretation.power
    rcases hcases with ⟨rfl, rfl⟩ | ⟨hconstant, hpole, rfl, hpow⟩
    · simp
    · rw [denote_of_isConstant hconstant, denote_ofConstant, Fraction.value_pow (hpow hfits)]
      have hnot : ¬((c.constant : K) = 0 ∧ n < 0) := by
        rw [Rat.cast_eq_zero]
        rintro ⟨hzero, hneg⟩
        rcases hpole with hn | hne
        · omega
        · exact hne hzero
      rw [if_neg hnot, Rat.cast_zpow]
  | call s as => cases h

theorem denote_ofSum (es : List Expr) {acc a : Affine} (hfits : (ofSum acc es).fits = true)
    (h : (ofSum acc es).value = some a) :
    acc.denote ρ + (es.map (Expr.denote I ρ)).sum = a.denote ρ := by
  cases es with
  | nil =>
    rw [← Option.some.inj h]
    simp
  | cons e es =>
    obtain ⟨b, hb, hes, hsplit⟩ := ofSum_cons_eq_some h
    obtain ⟨hbfits, -, hesfits⟩ := hsplit hfits
    rw [List.map_cons, List.sum_cons, ← add_assoc, denote_ofExpr e hbfits hb, ← denote_add,
      denote_ofSum es hesfits hes]

theorem denote_ofProduct (es : List Expr) {acc a : Affine}
    (hfits : (ofProduct acc es).fits = true) (h : (ofProduct acc es).value = some a) :
    acc.denote ρ * (es.map (Expr.denote I ρ)).prod = a.denote ρ := by
  cases es with
  | nil =>
    rw [← Option.some.inj h]
    simp
  | cons e es =>
    obtain ⟨b, acc', hb, hacc, hes, hsplit⟩ := ofProduct_cons_eq_some h
    obtain ⟨hbfits, -, hesfits⟩ := hsplit hfits
    rw [List.map_cons, List.prod_cons, ← mul_assoc, denote_ofExpr e hbfits hb,
      ← denote_mul ρ hacc, denote_ofProduct es hesfits hes]

end

theorem denote_toExpr (a : Affine) : a.toExpr.value.denote I ρ = a.denote ρ := by
  have hterms : (a.terms.entries.map termToExpr).map (Expr.denote I ρ) =
      a.terms.entries.map fun e => (e.2 : K) * ρ e.1 := by
    rw [List.map_map]
    apply List.map_congr_left
    intro e _
    simp only [Function.comp_apply, termToExpr]
    split
    · next he => simp [he, Expr.denote]
    · simp [Expr.denote]
  unfold toExpr
  rw [Expr.denote_sum]
  split
  · rw [List.map_append, List.sum_append, hterms]
    simp [denote, Expr.denote, add_comm]
  · next hzero =>
    rw [hterms]
    simp_all [denote]

end Soundness

end Affine

theorem Expr.denote_difference [DecidableEq K] [CharZero K] (I : Interpretation K) (ρ : String → K)
    {a b : Expr} (hfits : (a.difference b).fits = true) :
    (a.difference b).value.denote I ρ = a.denote I ρ - b.denote I ρ := by
  unfold difference at hfits ⊢
  split
  · next heq => simp [heq, denote]
  · next hne =>
    simp only [hne, if_false, Checked.fits_bind, Checked.value_bind, Bool.and_eq_true] at hfits ⊢
    obtain ⟨ha, hb, -⟩ := hfits
    cases hfa : (Affine.ofExpr a).value with
    | none => simp
    | some x =>
      cases hfb : (Affine.ofExpr b).value with
      | none => simp
      | some y =>
        simp only [Checked.value_bind]
        rw [Affine.denote_toExpr, Affine.denote_sub, Affine.denote_ofExpr I ρ a ha hfa,
          Affine.denote_ofExpr I ρ b hb hfb]

end Stencil
