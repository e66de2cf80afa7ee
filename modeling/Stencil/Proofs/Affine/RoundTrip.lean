import Stencil.Proofs.Affine.Exact
import Stencil.Proofs.Affine.Words
import Stencil.Proofs.Expr.Closure

/-!
This module contains the fact that an affine form can be read back from its expression. Writing the
form sorts its terms in another order than that of the scalars. This does not matter, because the
terms have different scalars and a form is determined by its values.
-/

namespace Stencil

namespace Expr

theorem foldNumbers_append_of_not {op : Rat → Rat → Checked Rat} {c : Rat} {es : List Expr}
    (h : ∀ e ∈ es, e.isNumber = false) (fs : List Expr) :
    foldNumbers op c (es ++ fs) = foldNumbers op c fs := by
  induction es with
  | nil => rfl
  | cons e es ih =>
    rw [List.forall_mem_cons] at h
    rw [List.cons_append, foldNumbers_cons_of_not h.1, ih h.2]

end Expr

namespace Affine

def termExprs (a : Affine) : List Expr := a.terms.entries.map termToExpr

theorem isNumber_of_mem_termExprs {a : Affine} {t : Expr} (ht : t ∈ a.termExprs) :
    t.isNumber = false := by
  obtain ⟨e, -, rfl⟩ := List.mem_map.1 ht
  exact isNumber_termToExpr e

theorem toExpr_eq (a : Affine) :
    a.toExpr = do
      let c ← if a.constant ≠ 0 ∨ a.termExprs.isEmpty then Fraction.add 0 a.constant else pure 0
      return Expr.ofTerms c a.termExprs := by
  have hterms : a.termExprs.flatMap Expr.terms = a.termExprs := by
    have hself : ∀ t ∈ a.termExprs, t.terms = [t] := by
      intro t ht
      obtain ⟨e, -, rfl⟩ := List.mem_map.1 ht
      exact terms_termToExpr e
    rw [List.flatMap_congr hself, List.flatMap_singleton']
  have hfilter : a.termExprs.filter (!·.isNumber) = a.termExprs := by
    rw [List.filter_eq_self]
    intro t ht
    rw [isNumber_of_mem_termExprs ht]
    rfl
  have hfold (fs : List Expr) :
      Expr.foldNumbers Fraction.add 0 (a.termExprs ++ fs) = Expr.foldNumbers Fraction.add 0 fs :=
    Expr.foldNumbers_append_of_not (fun t ht => isNumber_of_mem_termExprs ht) fs
  unfold toExpr Expr.sum
  rw [← termExprs]
  by_cases h : a.constant ≠ 0 ∨ a.termExprs.isEmpty = true
  · have hflat : (a.termExprs ++ [Expr.num a.constant]).flatMap Expr.terms =
        a.termExprs ++ [Expr.num a.constant] := by
      rw [List.flatMap_append, hterms]
      rfl
    have hothers : (a.termExprs ++ [Expr.num a.constant]).filter (!·.isNumber) = a.termExprs := by
      rw [List.filter_append, hfilter]
      exact List.append_nil _
    simp only [if_pos h, hflat, hothers, hfold]
    simp [Expr.foldNumbers]
  · have hnil := hfold []
    rw [List.append_nil] at hnil
    simp only [if_neg h, hterms, hfilter, hnil]
    rfl

theorem value_toExpr (a : Affine) :
    a.toExpr.value = Expr.ofTerms a.constant a.termExprs := by
  rw [toExpr_eq]
  split
  · simp
  · next h =>
    rw [not_or, Decidable.not_not] at h
    rw [h.1]
    rfl

theorem fits_toExpr {a : Affine} : a.toExpr.fits = true ↔ Fraction.isWords a.constant = true := by
  rw [toExpr_eq]
  split
  · simp [Fraction.fits_zero_add]
  · next h =>
    rw [not_or, Decidable.not_not] at h
    rw [h.1]
    exact ⟨fun _ => rfl, fun _ => rfl⟩

def form (e : Expr) : Affine := (ofExpr e).value.getD (ofConstant 0)

/-- The form of the expression exists, is computed in range and consists of words. -/
def InRange (e : Expr) : Prop := ofExpr e = pure (some (form e)) ∧ (form e).IsWords

theorem inRange_of_ofExpr {e : Expr} {a : Affine} (h : ofExpr e = pure (some a)) (ha : a.IsWords) :
    InRange e ∧ form e = a := by
  have hform : form e = a := by rw [form, h, Checked.value_pure, Option.getD_some]
  unfold InRange
  rw [hform]
  exact ⟨⟨h, ha⟩, rfl⟩

def single (s : String) (c : Rat) : Affine := ⟨0, OrdMap.empty.insert s c⟩

theorem coeff_single (s : String) (c : Rat) (t : String) :
    (single s c).coeff t = if s = t then c else 0 := by
  unfold single coeff
  rw [OrdMap.find?_insert]
  split <;> rfl

theorem isWords_single (s : String) {c : Rat} (hc : Fraction.isWords c = true) :
    (single s c).IsWords := by
  refine ⟨rfl, fun t => ?_⟩
  rw [coeff_single]
  split
  · exact hc
  · rfl

theorem scale_eq_pure {a : Affine} {c : Rat} (hc : c ≠ 0)
    (hconstant : Fraction.isWords (a.constant * c) = true)
    (hvalues : ∀ v ∈ a.terms.values, Fraction.isWords (v * c) = true) :
    a.scale c = pure ⟨a.constant * c, a.terms.mapValues (· * c)⟩ := by
  rw [Checked.eq_pure_iff]
  unfold scale
  rw [if_neg hc]
  refine ⟨?_, rfl⟩
  simp only [Checked.fits_bind, Checked.fits_ensure, Checked.fits_pure, Bool.and_true,
    Bool.and_eq_true]
  exact ⟨hconstant, List.all_eq_true.2 hvalues⟩

theorem ofExpr_termToExpr {e : String × Rat} (hzero : e.2 ≠ 0)
    (hwords : Fraction.isWords e.2 = true) :
    ofExpr (termToExpr e) = pure (some (single e.1 e.2)) := by
  obtain ⟨s, c⟩ := e
  dsimp only at hzero hwords ⊢
  by_cases hone : c = 1
  · rw [termToExpr, if_pos hone, hone]
    rfl
  · have hnumber : (ofConstant c).scale 1 = pure (ofConstant c) := by
      rw [scale_eq_pure one_ne_zero (by rwa [mul_one]) (by simp [ofConstant, OrdMap.values,
        OrdMap.empty]), mul_one]
      rfl
    have hsymbol : (ofSymbol s).scale c = pure (single s c) := by
      rw [scale_eq_pure hzero (by rw [ofSymbol, zero_mul]; rfl)]
      · simp [ofSymbol, single, OrdMap.mapValues, OrdMap.insert, OrdMap.alter, OrdMap.alterEntries,
          OrdMap.empty]
      · simpa [ofSymbol, OrdMap.values, OrdMap.insert, OrdMap.alter, OrdMap.alterEntries,
          OrdMap.empty] using hwords
    have hfirst : (ofConstant 1).mul (ofConstant c) = pure (some (ofConstant c)) :=
      congrArg (some <$> ·) hnumber
    have hsecond : (ofConstant c).mul (ofSymbol s) = pure (some (single s c)) :=
      congrArg (some <$> ·) hsymbol
    rw [termToExpr, if_neg hone]
    simp [ofExpr, ofProduct, hfirst, hsecond]

theorem exists_ofSum {es : List Expr} {acc : Affine} (hacc : acc.IsWords)
    (hes : ∀ e ∈ es, InRange e) (hapart : ∀ e ∈ es, Apart acc (form e))
    (hpairwise : es.Pairwise fun e e' => Apart (form e) (form e')) :
    ∃ a, ofSum acc es = pure (some a) := by
  induction es generalizing acc with
  | nil => exact ⟨acc, rfl⟩
  | cons e es ih =>
    rw [List.forall_mem_cons] at hes hapart
    rw [List.pairwise_cons] at hpairwise
    obtain ⟨hfits, hwords⟩ := fits_add_of_apart hacc hes.1.2 hapart.1
    have hadd : acc.add (form e) = pure (acc.add (form e)).value :=
      Checked.eq_pure_iff.2 ⟨hfits, rfl⟩
    have hstep : ofSum acc (e :: es) = acc.add (form e) >>= fun acc => ofSum acc es := by
      rw [ofSum, hes.1.1, pure_bind]
    rw [hstep, hadd, pure_bind]
    apply ih hwords hes.2 _ hpairwise.2
    intro e' he'
    exact (hapart.2 e' he').add (hpairwise.1 e' he')

theorem inRange_num {c : Rat} (hc : Fraction.isWords c = true) :
    InRange (.num c) ∧ form (.num c) = ofConstant c :=
  inRange_of_ofExpr rfl ⟨hc, fun _ => rfl⟩

section Writing

variable {a : Affine} (hreduced : a.Reduced) (hwords : a.IsWords)

include hreduced hwords

theorem inRange_termToExpr {e : String × Rat} (he : e ∈ a.terms.entries) :
    InRange (termToExpr e) ∧ form (termToExpr e) = single e.1 e.2 := by
  have hfind : a.terms.find? e.1 = some e.2 := OrdMap.find?_eq_some_iff.2 he
  have hzero : e.2 ≠ 0 := fun hzero => hreduced e.1 (hzero ▸ hfind)
  have hword : Fraction.isWords e.2 = true := by
    have hcoeff := hwords.coeff e.1
    rwa [coeff, hfind, Option.getD_some] at hcoeff
  exact inRange_of_ofExpr (ofExpr_termToExpr hzero hword) (isWords_single e.1 hword)

theorem inRange_withNumber {e : Expr} (he : e ∈ Expr.withNumber 0 a.constant a.termExprs) :
    InRange e := by
  rcases Expr.mem_withNumber.1 he with he | ⟨-, rfl⟩
  · obtain ⟨e', he', rfl⟩ := List.mem_map.1 he
    exact (inRange_termToExpr hreduced hwords he').1
  · exact (inRange_num hwords.constant).1

theorem pairwise_apart_withNumber :
    (Expr.withNumber 0 a.constant a.termExprs).Pairwise fun e e' => Apart (form e) (form e') := by
  have hterms : a.termExprs.Pairwise fun e e' => Apart (form e) (form e') := by
    unfold termExprs
    rw [List.pairwise_map]
    apply a.terms.ordered.imp_of_mem
    intro e e' he he' hlt
    have hne : e.1 ≠ e'.1 := by
      intro heq
      simp [heq] at hlt
    rw [(inRange_termToExpr hreduced hwords he).2, (inRange_termToExpr hreduced hwords he').2]
    refine ⟨.inl rfl, fun s => ?_⟩
    rw [coeff_single, coeff_single]
    by_cases hs : e.1 = s
    · exact .inr (if_neg fun hs' => hne (hs.trans hs'.symm))
    · exact .inl (if_neg hs)
  unfold Expr.withNumber
  split
  · exact hterms
  · rw [List.pairwise_append]
    refine ⟨hterms, List.pairwise_singleton .., ?_⟩
    intro t ht e he
    obtain ⟨e', he', rfl⟩ := List.mem_map.1 ht
    rw [List.mem_singleton.1 he, (inRange_termToExpr hreduced hwords he').2,
      (inRange_num hwords.constant).2]
    exact ⟨.inl rfl, fun s => .inr (coeff_ofConstant ..)⟩

theorem exists_ofExpr_toExpr : ∃ b, ofExpr a.toExpr.value = pure (some b) := by
  have hperm := Expr.sort_perm (Expr.withNumber 0 a.constant a.termExprs)
  have hinRange {e : Expr} (he : e ∈ Expr.sort (Expr.withNumber 0 a.constant a.termExprs)) :
      InRange e :=
    inRange_withNumber hreduced hwords (hperm.mem_iff.1 he)
  rw [value_toExpr, Expr.ofTerms_eq_assemble]
  unfold Expr.assemble
  split
  · exact ⟨ofConstant 0, rfl⟩
  · next e hsingle => exact ⟨form e, (hinRange (hsingle ▸ List.mem_singleton_self e)).1⟩
  · rw [ofExpr]
    apply exists_ofSum ⟨rfl, fun _ => rfl⟩ (fun e he => hinRange he)
    · exact fun e _ => ⟨.inl rfl, fun _ => .inl rfl⟩
    · rw [hperm.pairwise_iff Apart.symm]
      exact pairwise_apart_withNumber hreduced hwords

theorem ofExpr_toExpr : ofExpr a.toExpr.value = pure (some a) := by
  obtain ⟨b, hb⟩ := exists_ofExpr_toExpr hreduced hwords
  obtain ⟨hfits, hvalue⟩ := Checked.eq_pure_iff.1 hb
  have heq : b = a := by
    apply ext_denote (reduced_ofExpr _ hvalue) hreduced
    intro ρ
    rw [← denote_ofExpr default _ _ hfits hvalue, denote_toExpr]
  rw [hb, heq]

end Writing

end Affine

namespace Expr

theorem simplify_of_affine {e : Expr} {a : Affine} (h : Affine.ofExpr e = pure (some a)) :
    simplify e = a.toExpr := by
  rw [simplify, h, pure_bind]

theorem simplify_simplify {e : Expr} (hfits : (simplify e).fits = true) :
    simplify (simplify e).value = simplify e := by
  simp only [simplify, Checked.fits_bind, Bool.and_eq_true] at hfits
  cases hform : (Affine.ofExpr e).value with
  | none =>
    have hvalue : (simplify e).value = e := by
      simp only [simplify, Checked.value_bind, hform, Checked.value_pure]
    rw [hvalue]
  | some a =>
    have hofExpr : Affine.ofExpr e = pure (some a) := Checked.eq_pure_iff.2 ⟨hfits.1, hform⟩
    rw [hform] at hfits
    have hwords : a.IsWords :=
      ⟨Affine.fits_toExpr.1 hfits.2, Affine.isWords_coeff_ofExpr e hfits.1 hform⟩
    have hreduced := Affine.reduced_ofExpr e hform
    rw [simplify_of_affine hofExpr,
      simplify_of_affine (Affine.ofExpr_toExpr hreduced hwords)]

end Expr

namespace Affine

theorem value_toExpr_inj {a b : Affine} (ha : a.Reduced) (hb : b.Reduced) :
    a.toExpr.value = b.toExpr.value ↔ a = b := by
  constructor
  · intro h
    apply ext_denote ha hb
    intro ρ
    rw [← denote_toExpr default, h, denote_toExpr]
  · exact fun h => h ▸ rfl

theorem toExpr_bind_ofExpr {a : Affine} (hreduced : a.Reduced) (hwords : a.IsWords) :
    (a.toExpr >>= ofExpr) = pure (some a) := by
  have hwrite : a.toExpr = pure a.toExpr.value :=
    Checked.eq_pure_iff.2 ⟨fits_toExpr.2 hwords.constant, rfl⟩
  rw [hwrite, pure_bind, ofExpr_toExpr hreduced hwords]

theorem simplify_eq_iff_denote {e₁ e₂ : Expr} {a₁ a₂ : Affine} (h₁ : ofExpr e₁ = pure (some a₁))
    (h₂ : ofExpr e₂ = pure (some a₂)) (I : Interpretation Rat) :
    e₁.simplify.value = e₂.simplify.value ↔ ∀ ρ : String → Int,
      e₁.denote I (fun s => (ρ s : Rat)) = e₂.denote I fun s => (ρ s : Rat) := by
  have hreduced₁ := reduced_ofExpr e₁ (Checked.eq_pure_iff.1 h₁).2
  have hreduced₂ := reduced_ofExpr e₂ (Checked.eq_pure_iff.1 h₂).2
  rw [Expr.simplify_of_affine h₁, Expr.simplify_of_affine h₂,
    value_toExpr_inj hreduced₁ hreduced₂]
  exact eq_iff_denote h₁ h₂ I

/--
Affine forms of words survive being written as expressions and read back. So a second
simplification changes nothing, and affine expressions are simplified to the same expression if and
only if they have the same value at all integers.
-/
theorem toExpr_roundTrip :
    (∀ a : Affine, a.Reduced → a.IsWords → (a.toExpr >>= ofExpr) = pure (some a)) ∧
    (∀ e : Expr, e.simplify.fits = true → e.simplify.value.simplify = e.simplify) ∧
    ∀ (e₁ e₂ : Expr) (a₁ a₂ : Affine), ofExpr e₁ = pure (some a₁) → ofExpr e₂ = pure (some a₂) →
      ∀ I : Interpretation Rat, e₁.simplify.value = e₂.simplify.value ↔ ∀ ρ : String → Int,
        e₁.denote I (fun s => (ρ s : Rat)) = e₂.denote I fun s => (ρ s : Rat) :=
  ⟨fun _ => toExpr_bind_ofExpr, fun _ => Expr.simplify_simplify,
    fun _ _ _ _ => simplify_eq_iff_denote⟩

/-- The form of `1/2 + 2/3 x + y`, whose expression names `y` before `x`. -/
def mixed : Affine := ⟨1 / 2, (OrdMap.empty.insert "x" (2 / 3)).insert "y" 1⟩

theorem toExpr_roundTrip_mixed :
    mixed.toExpr.value = .add [.num (1 / 2), .sym "y", .mul [.num (2 / 3), .sym "x"]] ∧
      (mixed.toExpr >>= ofExpr) = pure (some mixed) ∧
      doubled.simplify.value.simplify = doubled.simplify ∧
      ∀ (I : Interpretation Rat) (ρ : String → Int), doubled.denote I (fun s => (ρ s : Rat)) =
        (Expr.add [.sym "x", .num 1]).denote I fun s => (ρ s : Rat) := by
  have hmixed : ofExpr (.add [.sym "y", .mul [.sym "x", .num (2 / 3)], .num (1 / 2)]) =
      pure (some mixed) := by
    decide +kernel
  obtain ⟨hfits, hvalue⟩ := Checked.eq_pure_iff.1 hmixed
  have hwords : mixed.IsWords := ⟨by decide +kernel, isWords_coeff_ofExpr _ hfits hvalue⟩
  have hdoubled : ofExpr doubled = pure (some successor) := by decide +kernel
  have hsuccessor : ofExpr (.add [.sym "x", .num 1]) = pure (some successor) := by decide +kernel
  obtain ⟨hread, hsimplify, hdenote⟩ := toExpr_roundTrip
  refine ⟨by decide +kernel, hread mixed (reduced_ofExpr _ hvalue) hwords,
    hsimplify doubled (by decide +kernel), fun I => ?_⟩
  apply (hdenote _ _ _ _ hdoubled hsuccessor I).1
  decide +kernel

end Affine

end Stencil
