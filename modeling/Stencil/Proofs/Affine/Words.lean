import Stencil.Proofs.Affine.Denote

/-!
This module contains affine forms of machine words. The coefficients of an expression are words if
they are computed in range, and forms that have no scalar in common are always added in range.
-/

namespace Stencil

namespace Affine

structure IsWords (a : Affine) : Prop where
  constant : Fraction.isWords a.constant = true
  coeff (s : String) : Fraction.isWords (a.coeff s) = true

theorem fits_addTerm (a : Affine) (s : String) (c : Rat) :
    (a.addTerm s c).fits = (Fraction.add (a.coeff s) c).fits := by
  simp [addTerm]

theorem isWords_coeff_addTerm {a : Affine} {s : String} {c : Rat}
    (hfits : (a.addTerm s c).fits = true) (ha : ∀ t, Fraction.isWords (a.coeff t) = true)
    (t : String) : Fraction.isWords ((a.addTerm s c).value.coeff t) = true := by
  rw [coeff_addTerm]
  split
  · next hst =>
    subst hst
    exact Fraction.isWords_add (ha s) (fits_addTerm a s c ▸ hfits)
  · rw [add_zero]
    exact ha t

theorem isWords_coeff_foldlM {es : List (String × Rat)} {a : Affine}
    (hfits : (es.foldlM (fun (a : Affine) e => a.addTerm e.1 e.2) a).fits = true)
    (ha : ∀ s, Fraction.isWords (a.coeff s) = true) (s : String) :
    Fraction.isWords ((es.foldlM (fun (a : Affine) e => a.addTerm e.1 e.2) a).value.coeff s) =
      true := by
  induction es generalizing a with
  | nil => exact ha s
  | cons e es ih =>
    rw [List.foldlM_cons, Checked.fits_bind, Bool.and_eq_true] at hfits
    rw [List.foldlM_cons, Checked.value_bind]
    exact ih hfits.2 (isWords_coeff_addTerm hfits.1 ha)

theorem isWords_coeff_add {a b : Affine} (hfits : (a.add b).fits = true)
    (ha : ∀ s, Fraction.isWords (a.coeff s) = true) (s : String) :
    Fraction.isWords ((a.add b).value.coeff s) = true := by
  simp only [add, Checked.fits_bind, Bool.and_eq_true] at hfits
  exact isWords_coeff_foldlM hfits.2 ha s

theorem isWords_coeff_scale {a : Affine} {c : Rat} (hfits : (a.scale c).fits = true)
    (s : String) : Fraction.isWords ((a.scale c).value.coeff s) = true := by
  rw [coeff_scale]
  unfold scale at hfits
  split at hfits
  · next hc =>
    rw [hc, mul_zero]
    rfl
  · simp only [Checked.fits_bind, Checked.fits_ensure, Bool.and_eq_true] at hfits
    have hall := List.all_eq_true.1 hfits.2.1
    unfold coeff
    cases hs : a.terms.find? s with
    | none =>
      rw [Option.getD_none, zero_mul]
      rfl
    | some v => exact hall v (List.mem_map_of_mem (OrdMap.find?_eq_some_iff.1 hs))

theorem isWords_coeff_mul {a b c : Affine} (hfits : (a.mul b).fits = true)
    (h : (a.mul b).value = some c) (s : String) : Fraction.isWords (c.coeff s) = true := by
  unfold mul at hfits h
  split at hfits
  all_goals simp_all only [Checked.fits_map, Checked.value_map, Option.some.injEq]
  · exact h ▸ isWords_coeff_scale hfits s
  · exact h ▸ isWords_coeff_scale hfits s
  · cases h

mutual

theorem isWords_coeff_ofExpr (e : Expr) {a : Affine} (hfits : (ofExpr e).fits = true)
    (h : (ofExpr e).value = some a) (s : String) : Fraction.isWords (a.coeff s) = true := by
  cases e with
  | num q =>
    rw [← Option.some.inj h]
    rfl
  | sym t =>
    rw [← Option.some.inj h, coeff_ofSymbol]
    split <;> rfl
  | access f is => cases h
  | add ts => exact isWords_coeff_ofSum ts (fun _ => rfl) hfits h s
  | mul fs => exact isWords_coeff_ofProduct fs (fun _ => rfl) hfits h s
  | pow b n =>
    obtain ⟨c, hb, hbfits, ⟨-, rfl⟩ | ⟨-, -, rfl, -⟩⟩ := ofExpr_pow_eq_some h
    · exact isWords_coeff_ofExpr b (hbfits hfits) hb s
    · rfl
  | call t as => cases h

theorem isWords_coeff_ofSum (es : List Expr) {acc a : Affine}
    (hacc : ∀ s, Fraction.isWords (acc.coeff s) = true) (hfits : (ofSum acc es).fits = true)
    (h : (ofSum acc es).value = some a) (s : String) : Fraction.isWords (a.coeff s) = true := by
  cases es with
  | nil =>
    rw [← Option.some.inj h]
    exact hacc s
  | cons e es =>
    obtain ⟨b, -, hes, hsplit⟩ := ofSum_cons_eq_some h
    obtain ⟨-, haddfits, hesfits⟩ := hsplit hfits
    exact isWords_coeff_ofSum es (isWords_coeff_add haddfits hacc) hesfits hes s

theorem isWords_coeff_ofProduct (es : List Expr) {acc a : Affine}
    (hacc : ∀ s, Fraction.isWords (acc.coeff s) = true) (hfits : (ofProduct acc es).fits = true)
    (h : (ofProduct acc es).value = some a) (s : String) :
    Fraction.isWords (a.coeff s) = true := by
  cases es with
  | nil =>
    rw [← Option.some.inj h]
    exact hacc s
  | cons e es =>
    obtain ⟨b, acc', -, hacc', hes, hsplit⟩ := ofProduct_cons_eq_some h
    obtain ⟨-, hmulfits, hesfits⟩ := hsplit hfits
    exact isWords_coeff_ofProduct es (isWords_coeff_mul hmulfits hacc') hesfits hes s

end

structure Apart (a b : Affine) : Prop where
  constant : a.constant = 0 ∨ b.constant = 0
  coeff (s : String) : a.coeff s = 0 ∨ b.coeff s = 0

theorem Apart.symm {a b : Affine} (h : Apart a b) : Apart b a :=
  ⟨h.constant.symm, fun s => (h.coeff s).symm⟩

theorem Apart.add {a b c : Affine} (ha : Apart a c) (hb : Apart b c) :
    Apart (a.add b).value c := by
  constructor
  · rw [constant_add]
    rcases ha.constant, hb.constant with ⟨ha | hc, hb | hc⟩
    · exact .inl (by rw [ha, hb, add_zero])
    all_goals exact .inr hc
  · intro s
    rw [coeff_add]
    rcases ha.coeff s, hb.coeff s with ⟨ha | hc, hb | hc⟩
    · exact .inl (by rw [ha, hb, add_zero])
    all_goals exact .inr hc

end Affine

theorem Fraction.fits_add_of_zero {p q : Rat} (h : p = 0 ∨ q = 0) (hp : isWords p = true)
    (hq : isWords q = true) : (add p q).fits = true := by
  rcases h with rfl | rfl
  · exact fits_zero_add.2 hq
  · exact fits_add_zero.2 hp

namespace Affine

theorem fits_foldlM_addTerm {es : List (String × Rat)} {a : Affine}
    (hnodup : (es.map (·.1)).Nodup)
    (h : ∀ e ∈ es, (Fraction.add (a.coeff e.1) e.2).fits = true) :
    (es.foldlM (fun (a : Affine) e => a.addTerm e.1 e.2) a).fits = true := by
  induction es generalizing a with
  | nil => rfl
  | cons e es ih =>
    rw [List.map_cons, List.nodup_cons] at hnodup
    rw [List.forall_mem_cons] at h
    rw [List.foldlM_cons, Checked.fits_bind, fits_addTerm, h.1, Bool.true_and]
    apply ih hnodup.2
    intro e' he'
    -- The scalar of `e` does not occur again, so the others have their coefficients still.
    have hne : e.1 ≠ e'.1 := fun heq => hnodup.1 (heq ▸ List.mem_map_of_mem he')
    rw [coeff_addTerm, if_neg hne, add_zero]
    exact h.2 e' he'

theorem fits_add_of_apart {a b : Affine} (ha : a.IsWords) (hb : b.IsWords) (h : Apart a b) :
    (a.add b).fits = true ∧ (a.add b).value.IsWords := by
  have hconstant := Fraction.fits_add_of_zero h.constant ha.constant hb.constant
  have hcoeff (s : String) : (Fraction.add (a.coeff s) (b.coeff s)).fits = true :=
    Fraction.fits_add_of_zero (h.coeff s) (ha.coeff s) (hb.coeff s)
  constructor
  · simp only [add, Checked.fits_bind, hconstant, Bool.true_and]
    apply fits_foldlM_addTerm b.terms.nodup_keys
    intro e he
    have hfind : b.coeff e.1 = e.2 := by
      rw [coeff, OrdMap.find?_eq_some_iff.2 he, Option.getD_some]
    have hfits := hcoeff e.1
    rwa [hfind] at hfits
  · constructor
    · rw [constant_add]
      exact Fraction.isWords_add ha.constant hconstant
    · intro s
      rw [coeff_add]
      exact Fraction.isWords_add (ha.coeff s) (hcoeff s)

end Affine

end Stencil
