import Stencil.Proofs.Expr.Within

/-!
This module contains the replacement of subexpressions: what it leaves of an expression, and that it
keeps the value if everything that is replaced has the value of what is put in its place.
-/

namespace Stencil

namespace Expr

section Steps

attribute [local simp] replace replaceList

@[simp]
theorem value_replaceList (σ : Expr → Option Expr) (es : List Expr) :
    (replaceList σ es).value = es.map fun e => (replace σ e).value := by
  induction es with
  | nil => rfl
  | cons e es ih => simp [ih]

theorem value_replace_of_some {σ : Expr → Option Expr} {e e' : Expr} (hσ : σ e = some e') :
    (replace σ e).value = e' := by
  cases e <;> simp [hσ]

theorem value_replace_of_leaf {σ : Expr → Option Expr} {e : Expr} (hσ : σ e = none)
    (he : e.isOperation = false) : (replace σ e).value = e := by
  cases e <;> simp_all [isOperation]

theorem value_replace_add {σ : Expr → Option Expr} {ts : List Expr} (hσ : σ (add ts) = none) :
    (replace σ (add ts)).value = (sum (ts.map fun t => (replace σ t).value)).value := by
  simp [hσ]

theorem value_replace_mul {σ : Expr → Option Expr} {fs : List Expr} (hσ : σ (mul fs) = none) :
    (replace σ (mul fs)).value = (product (fs.map fun f => (replace σ f).value)).value := by
  simp [hσ]

theorem value_replace_pow {σ : Expr → Option Expr} {b : Expr} {n : Int}
    (hσ : σ (pow b n) = none) :
    (replace σ (pow b n)).value = (power (replace σ b).value n).value := by
  simp [hσ]

theorem value_replace_call {σ : Expr → Option Expr} {s : String} {as : List Expr}
    (hσ : σ (call s as) = none) :
    (replace σ (call s as)).value = call s (as.map fun a => (replace σ a).value) := by
  simp [hσ]

/--
Induction over a replacement: what is replaced, what is left alone, and the operations that are
rebuilt from their replaced arguments.
-/
theorem replace_induct {σ : Expr → Option Expr} {motive : Expr → Expr → Prop}
    (found : ∀ e e', σ e = some e' → motive e e')
    (leaf : ∀ e, σ e = none → e.isOperation = false → motive e e)
    (add : ∀ ts, σ (add ts) = none → (∀ t ∈ ts, motive t (replace σ t).value) →
      motive (add ts) (sum (ts.map fun t => (replace σ t).value)).value)
    (mul : ∀ fs, σ (mul fs) = none → (∀ f ∈ fs, motive f (replace σ f).value) →
      motive (mul fs) (product (fs.map fun f => (replace σ f).value)).value)
    (pow : ∀ b n, σ (pow b n) = none → motive b (replace σ b).value →
      motive (pow b n) (power (replace σ b).value n).value)
    (call : ∀ s as, σ (call s as) = none → (∀ a ∈ as, motive a (replace σ a).value) →
      motive (call s as) (.call s (as.map fun a => (replace σ a).value)))
    (e : Expr) : motive e (replace σ e).value := by
  have hfound {e e' : Expr} (hσ : σ e = some e') : motive e (replace σ e).value := by
    rw [value_replace_of_some hσ]
    exact found e e' hσ
  have hleaf {e : Expr} (he : e.isOperation = false) : motive e (replace σ e).value := by
    cases hσ : σ e with
    | some e' => exact hfound hσ
    | none =>
      rw [value_replace_of_leaf hσ he]
      exact leaf e hσ he
  induction e with
  | num q => exact hleaf rfl
  | sym s => exact hleaf rfl
  | access f is => exact hleaf rfl
  | add ts ih =>
    cases hσ : σ (.add ts) with
    | some e' => exact hfound hσ
    | none => simpa [hσ] using add ts hσ ih
  | mul fs ih =>
    cases hσ : σ (.mul fs) with
    | some e' => exact hfound hσ
    | none => simpa [hσ] using mul fs hσ ih
  | pow b n ih =>
    cases hσ : σ (.pow b n) with
    | some e' => exact hfound hσ
    | none => simpa [hσ] using pow b n hσ ih
  | call s as ih =>
    cases hσ : σ (.call s as) with
    | some e' => exact hfound hσ
    | none => simpa [hσ] using call s as hσ ih

end Steps

theorem within_replace {σ : Expr → Option Expr} {x e : Expr} (hx : x.isAtom = true) :
    x.Within (replace σ e).value →
      x.Within e ∧ σ x = none ∨ ∃ a b, a.Within e ∧ σ a = some b ∧ x.Within b := by
  have hargs {e : Expr} (ih : ∀ a ∈ e.args, x.Within (replace σ a).value →
        x.Within a ∧ σ x = none ∨ ∃ a' b, a'.Within a ∧ σ a' = some b ∧ x.Within b)
      (h : ∃ a ∈ e.args.map fun a => (replace σ a).value, x.Within a) :
      x.Within e ∧ σ x = none ∨ ∃ a b, a.Within e ∧ σ a = some b ∧ x.Within b := by
    obtain ⟨_, hmem, h⟩ := h
    obtain ⟨a, ha, rfl⟩ := List.mem_map.1 hmem
    rcases ih a ha h with ⟨h, hσ⟩ | ⟨a', b, ha', hσ, h⟩
    · exact .inl ⟨.arg ha h, hσ⟩
    · exact .inr ⟨a', b, .arg ha ha', hσ, h⟩
  induction e using replace_induct (σ := σ) with
  | found e e' hσ => exact fun h => .inr ⟨e, e', .self, hσ, h⟩
  | leaf e hσ he =>
    intro h
    obtain rfl := h.eq_of_args (args_eq_nil he)
    exact .inl ⟨.self, hσ⟩
  | add ts _ ih => exact fun h => hargs ih (exists_within_of_sum hx h)
  | mul fs _ ih => exact fun h => hargs ih (exists_within_of_product hx h)
  | pow b n _ ih =>
    intro h
    apply hargs (e := .pow b n) (List.forall_mem_singleton.2 ih)
    exact ⟨_, List.mem_singleton_self _, within_of_power hx h⟩
  | call s as _ ih =>
    intro h
    rcases within_iff.1 h with rfl | h
    · cases hx
    · exact hargs ih h

section Values

variable {K : Type} [Field K] [DecidableEq K] [CharZero K] {I : Interpretation K} {ρ : String → K}
variable {σ : Expr → Option Expr}

theorem denote_power {b : Expr} {n : Int} (hfits : (power b n).fits = true) :
    (power b n).value.denote I ρ = I.power (b.denote I ρ) n := by
  unfold power at hfits ⊢
  unfold Interpretation.power
  split
  · next hn => simp [hn, denote]
  · next hn =>
    split
    · next hn1 => simp [hn1]
    · next hn1 =>
      split
      · next q =>
        simp only [hn, hn1, if_false] at hfits
        split
        · next hcases =>
          simp only [hcases, if_true, Checked.fits_map] at hfits
          have hnot : ¬((q : K) = 0 ∧ n < 0) := by
            rw [Rat.cast_eq_zero]
            rintro ⟨hq, hneg⟩
            rcases hcases with hpos | hne
            · omega
            · exact hne hq
          rw [Checked.value_map, denote, denote, if_neg hnot, Fraction.value_pow hfits,
            Rat.cast_zpow]
        · rfl
      · rfl

theorem fits_replaceList {es : List Expr} :
    (replaceList σ es).fits = true ↔ ∀ e ∈ es, (replace σ e).fits = true := by
  induction es with
  | nil => simp [replaceList]
  | cons e es ih => simp [replaceList, ih]

theorem denote_replace (hcall : ∀ s as bs vs, I.call s as vs = I.call s bs vs)
    (hσ : ∀ a b, σ a = some b → b.denote I ρ = a.denote I ρ) {e : Expr} :
    (replace σ e).fits = true → (replace σ e).value.denote I ρ = e.denote I ρ := by
  have hlist {es : List Expr}
      (ih : ∀ e ∈ es, (replace σ e).fits = true →
        (replace σ e).value.denote I ρ = e.denote I ρ)
      (hfits : (replaceList σ es).fits = true) :
      (es.map fun e => (replace σ e).value).map (denote I ρ) = es.map (denote I ρ) := by
    rw [List.map_map]
    exact List.map_congr_left fun e he => ih e he (fits_replaceList.1 hfits e he)
  induction e using replace_induct (σ := σ) with
  | found e e' hfound => exact fun _ => hσ e e' hfound
  | leaf e _ _ => exact fun _ => rfl
  | add ts hnone ih =>
    intro hfits
    simp only [replace, hnone, Checked.fits_bind, Bool.and_eq_true] at hfits
    rw [denote_sum, hlist ih hfits.1, denote, denoteAll_eq_map]
  | mul fs hnone ih =>
    intro hfits
    simp only [replace, hnone, Checked.fits_bind, Bool.and_eq_true] at hfits
    rw [denote_product, hlist ih hfits.1, denote, denoteAll_eq_map]
  | pow b n hnone ih =>
    intro hfits
    simp only [replace, hnone, Checked.fits_bind, Bool.and_eq_true] at hfits
    rw [denote_power hfits.2, ih hfits.1, denote]
  | call s as hnone ih =>
    intro hfits
    simp only [replace, hnone, Checked.fits_bind, Bool.and_eq_true] at hfits
    rw [denote, denote, denoteAll_eq_map, denoteAll_eq_map, hlist ih hfits.1]
    apply hcall

end Values

end Expr

end Stencil
