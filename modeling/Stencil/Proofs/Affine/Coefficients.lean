import Mathlib.Algebra.BigOperators.Group.List.Basic
import Stencil.Affine
import Stencil.Proofs.Analysis
import Stencil.Proofs.Fraction
import Stencil.Proofs.OrdMap

/-!
This module contains the operations on affine forms, as far as they show in the constant and in the
coefficients. A form without zero coefficients is determined by these.
-/

namespace Stencil

namespace Affine

def Reduced (a : Affine) : Prop := ∀ s, a.terms.find? s ≠ some 0

theorem coeff_eq_zero_iff {a : Affine} (h : a.Reduced) {s : String} :
    a.coeff s = 0 ↔ a.terms.find? s = none := by
  unfold coeff
  cases hs : a.terms.find? s with
  | none => simp
  | some c =>
    have hc : c ≠ 0 := fun hc => h s (hc ▸ hs)
    simp [hc]

theorem isConstant_iff_coeff {a : Affine} (h : a.Reduced) :
    a.isConstant = true ↔ ∀ s, a.coeff s = 0 := by
  simp only [coeff_eq_zero_iff h, OrdMap.find?_eq_none_iff]
  unfold isConstant OrdMap.isEmpty OrdMap.keys
  cases a.terms.entries with
  | nil => simp
  | cons e es =>
    simp only [List.isEmpty_cons, Bool.false_eq_true, List.map_cons, List.mem_cons, false_iff]
    intro hall
    exact hall e.1 (.inl rfl)

theorem ext_coeff {a b : Affine} (ha : a.Reduced) (hb : b.Reduced)
    (hconstant : a.constant = b.constant) (hcoeff : ∀ s, a.coeff s = b.coeff s) : a = b := by
  have hterms : a.terms = b.terms := by
    apply OrdMap.ext_find?
    intro s
    have hs := hcoeff s
    cases hfa : a.terms.find? s with
    | none =>
      rw [(coeff_eq_zero_iff ha).2 hfa] at hs
      exact ((coeff_eq_zero_iff hb).1 hs.symm).symm
    | some c =>
      cases hfb : b.terms.find? s with
      | none =>
        rw [(coeff_eq_zero_iff hb).2 hfb] at hs
        rw [(coeff_eq_zero_iff ha).1 hs] at hfa
        cases hfa
      | some d => simp_all [coeff]
  cases a
  cases b
  simp_all

@[simp]
theorem coeff_ofConstant (c : Rat) (s : String) : (ofConstant c).coeff s = 0 := rfl

theorem reduced_ofConstant (c : Rat) : (ofConstant c).Reduced := by
  intro s
  simp [ofConstant]

@[simp]
theorem coeff_ofSymbol (s t : String) : (ofSymbol s).coeff t = if s = t then 1 else 0 := by
  unfold ofSymbol coeff
  rw [OrdMap.find?_insert]
  split <;> simp

theorem reduced_ofSymbol (s : String) : (ofSymbol s).Reduced := by
  intro t
  simp only [ofSymbol, OrdMap.find?_insert]
  split <;> simp

@[simp]
theorem constant_addTerm (a : Affine) (s : String) (c : Rat) :
    (a.addTerm s c).value.constant = a.constant := rfl

theorem coeff_addTerm (a : Affine) (s t : String) (c : Rat) :
    (a.addTerm s c).value.coeff t = a.coeff t + if s = t then c else 0 := by
  simp only [addTerm, Checked.value_bind, Checked.value_pure, Fraction.value_add]
  unfold coeff
  by_cases hst : s = t
  · subst hst
    split
    · next hzero => simpa [OrdMap.find?_erase] using hzero.symm
    · simp [OrdMap.find?_insert]
  · split <;> simp [OrdMap.find?_erase, OrdMap.find?_insert, hst]

theorem reduced_addTerm {a : Affine} (h : a.Reduced) (s : String) (c : Rat) :
    (a.addTerm s c).value.Reduced := by
  intro t
  simp only [addTerm, Checked.value_bind, Checked.value_pure, Fraction.value_add]
  split
  · rw [OrdMap.find?_erase]
    split
    · simp
    · exact h t
  · next hne =>
    rw [OrdMap.find?_insert]
    split
    · simpa using hne
    · exact h t

def contribution (s : String) (es : List (String × Rat)) : Rat :=
  (es.map fun e => if e.1 = s then e.2 else 0).sum

theorem contribution_entries (a : Affine) (s : String) :
    contribution s a.terms.entries = a.coeff s := by
  have hlist : ∀ es : List (String × Rat), (es.map (·.1)).Nodup →
      contribution s es = ((es.find? fun e => compare s e.1 == .eq).map (·.2)).getD 0 := by
    intro es hnodup
    induction es with
    | nil => simp [contribution]
    | cons e es ih =>
      simp only [List.map_cons, List.nodup_cons, List.mem_map, not_exists, not_and] at hnodup
      by_cases hs : s = e.1
      · -- The keys are distinct, so the tail contributes nothing.
        have hzero : contribution s es = 0 := by
          apply List.sum_eq_zero
          intro q hq
          obtain ⟨e', he', rfl⟩ := List.mem_map.1 hq
          have hne : e'.1 ≠ s := fun h => hnodup.1 e' he' (h.trans hs)
          simp [hne]
        unfold contribution at hzero ⊢
        simp [hs.symm, hzero]
      · have hne : (compare s e.1 == .eq) = false := by simpa using hs
        rw [List.find?_cons, hne, ← ih hnodup.2]
        simp [contribution, Ne.symm hs]
  exact hlist a.terms.entries a.terms.nodup_keys

theorem foldl_addTerm (es : List (String × Rat)) (a : Affine) (s : String) :
    (es.foldl (fun a e => (a.addTerm e.1 e.2).value) a).constant = a.constant ∧
      (es.foldl (fun a e => (a.addTerm e.1 e.2).value) a).coeff s =
        a.coeff s + contribution s es := by
  induction es generalizing a with
  | nil => simp [contribution]
  | cons e es ih =>
    obtain ⟨hconstant, hcoeff⟩ := ih (a.addTerm e.1 e.2).value
    rw [List.foldl_cons]
    refine ⟨hconstant, ?_⟩
    rw [hcoeff, coeff_addTerm, contribution, contribution, List.map_cons, List.sum_cons, add_assoc]

theorem reduced_foldl_addTerm {es : List (String × Rat)} {a : Affine} (h : a.Reduced) :
    (es.foldl (fun a e => (a.addTerm e.1 e.2).value) a).Reduced := by
  induction es generalizing a with
  | nil => exact h
  | cons e es ih => exact ih (reduced_addTerm h e.1 e.2)

@[simp]
theorem constant_add (a b : Affine) :
    (a.add b).value.constant = a.constant + b.constant := by
  simp only [add, Checked.value_bind, Checked.value_foldlM, Fraction.value_add]
  exact (foldl_addTerm _ _ "").1

@[simp]
theorem coeff_add (a b : Affine) (s : String) :
    (a.add b).value.coeff s = a.coeff s + b.coeff s := by
  simp only [add, Checked.value_bind, Checked.value_foldlM, Fraction.value_add]
  rw [(foldl_addTerm _ _ s).2, contribution_entries]
  rfl

theorem reduced_add {a : Affine} (h : a.Reduced) (b : Affine) : (a.add b).value.Reduced := by
  simp only [add, Checked.value_bind, Checked.value_foldlM]
  exact reduced_foldl_addTerm h

@[simp]
theorem constant_scale (a : Affine) (c : Rat) :
    (a.scale c).value.constant = a.constant * c := by
  unfold scale
  split
  · next hc => simp [hc, ofConstant]
  · rfl

@[simp]
theorem coeff_scale (a : Affine) (c : Rat) (s : String) :
    (a.scale c).value.coeff s = a.coeff s * c := by
  unfold scale
  split
  · next hc => simp [hc]
  · simp only [Checked.value_bind, Checked.value_pure, coeff, OrdMap.find?_mapValues]
    cases a.terms.find? s <;> simp

theorem reduced_scale {a : Affine} (h : a.Reduced) (c : Rat) : (a.scale c).value.Reduced := by
  unfold scale
  split
  · exact reduced_ofConstant 0
  · next hc =>
    intro s
    simp only [Checked.value_bind, Checked.value_pure, OrdMap.find?_mapValues]
    cases hs : a.terms.find? s with
    | none => simp
    | some v =>
      have hv : v ≠ 0 := fun hv => h s (hv ▸ hs)
      simp [hv, hc]

@[simp]
theorem constant_sub (a b : Affine) :
    (a.sub b).value.constant = a.constant - b.constant := by
  simp [sub, neg, sub_eq_add_neg]

@[simp]
theorem coeff_sub (a b : Affine) (s : String) :
    (a.sub b).value.coeff s = a.coeff s - b.coeff s := by
  simp [sub, neg, sub_eq_add_neg]

theorem reduced_sub {a : Affine} (h : a.Reduced) (b : Affine) : (a.sub b).value.Reduced :=
  reduced_add h _

theorem mul_eq_some {a b c : Affine} (h : (a.mul b).value = some c) :
    a.isConstant = true ∧ c = (b.scale a.constant).value ∨
      b.isConstant = true ∧ c = (a.scale b.constant).value := by
  unfold mul toConstant? at h
  by_cases ha : a.isConstant = true
  · left
    simp only [ha, if_true, Checked.value_map, Option.some.injEq] at h
    exact ⟨ha, h.symm⟩
  · right
    by_cases hb : b.isConstant = true
    · simp only [ha, hb, if_true] at h
      exact ⟨hb, (Option.some.inj h).symm⟩
    · simp [ha, hb] at h

theorem reduced_mul {a b c : Affine} (ha : a.Reduced) (hb : b.Reduced)
    (h : (a.mul b).value = some c) : c.Reduced := by
  rcases mul_eq_some h with ⟨-, rfl⟩ | ⟨-, rfl⟩
  · exact reduced_scale hb _
  · exact reduced_scale ha _

end Affine

end Stencil
