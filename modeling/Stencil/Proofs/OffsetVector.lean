import Mathlib.Data.List.Forall2
import Mathlib.Order.Compare
import Mathlib.Tactic.Linarith
import Stencil.Proofs.Expr.Literal

/-!
This module contains the meaning of the comparison of vectors: an answer is the order of the vectors
for all values of their scalars, and vectors with affine entries that differ by fixed integers are
always given an answer.
-/

namespace Stencil

namespace Affine

theorem isConstant_of_denote {a : Affine} (ha : a.Reduced) {z : Rat}
    (h : ∀ ρ : String → Int, a.denote (fun s => (ρ s : Rat)) = z) :
    a.isConstant = true ∧ a.constant = z := by
  have hsum : ∀ ρ : String → Int,
      a.constant + ∑ s ∈ a.symbols.toFinset, a.coeff s * (ρ s : Rat) = z := by
    intro ρ
    rw [← h ρ, denote_eq_sum _ a (S := a.symbols.toFinset) (by simp)]
    simp
  have hconstant : a.constant = z := by simpa using hsum fun _ => 0
  refine ⟨(isConstant_iff_coeff ha).2 fun s => ?_, hconstant⟩
  by_cases hs : s ∈ a.symbols
  · -- The value at the unit vector of `s` is its coefficient more than the one at zero.
    have hunit := hsum fun t => if t = s then 1 else 0
    simpa [hconstant, hs] using hunit
  · rw [coeff_eq_zero_iff ha, OrdMap.find?_eq_none_iff]
    exact hs

end Affine

namespace Expr

def valueAt (I : Interpretation Rat) (ρ : String → Int) (e : Expr) : Rat :=
  e.denote I fun s => (ρ s : Rat)

def DifferByInt (I : Interpretation Rat) (a b : Expr) : Prop :=
  ∃ z : Int, ∀ ρ : String → Int, a.valueAt I ρ - b.valueAt I ρ = (z : Rat)

theorem toInt?_difference_of_denote (I : Interpretation Rat) {a b : Expr} {x y : Affine} {z : Int}
    (hfits : (a.difference b).fits = true) (ha : (Affine.ofExpr a).value = some x)
    (hb : (Affine.ofExpr b).value = some y)
    (h : ∀ ρ : String → Int, a.valueAt I ρ - b.valueAt I ρ = (z : Rat)) :
    (a.difference b).value.toInt? = some z := by
  have hdenote : ∀ ρ : String → Int,
      (a.difference b).value.denote I (fun s => (ρ s : Rat)) = z := by
    intro ρ
    rw [denote_difference I _ hfits]
    exact h ρ
  unfold difference at hdenote ⊢
  split
  · next heq =>
    have hzero := hdenote fun _ => 0
    rw [if_pos heq, Checked.value_pure, denote] at hzero
    rw [Checked.value_pure, toInt?, Fraction.toInt?_eq_some_iff]
    simpa using hzero
  · next hne =>
    simp only [hne, if_false, Checked.value_bind, ha, hb, Affine.denote_toExpr] at hdenote ⊢
    obtain ⟨hconstant, hvalue⟩ :=
      Affine.isConstant_of_denote (Affine.reduced_sub (Affine.reduced_ofExpr a ha) y) hdenote
    rw [Affine.toExpr_of_isConstant hconstant, toInt?, Fraction.toInt?_eq_some_iff, hvalue]

theorem toInt?_ofInt (i : Int) : (ofInt i).toInt? = some i := by
  simp [ofInt, toInt?, Fraction.toInt?]

end Expr

namespace OffsetVector

theorem value_sub {a b : OffsetVector} (hrank : a.length = b.length) :
    (a.sub b).run.value = .ok ((a.zip b).map fun e => (e.1.difference e.2).value) := by
  unfold sub zipWith
  rw [if_pos hrank, Analysis.value_lift, Checked.value_mapM]

theorem value_compare? {a b : OffsetVector} (hrank : a.length = b.length) :
    (a.compare? b).run.value =
      .ok (sign? ((a.zip b).map fun e => (e.1.difference e.2).value)) := by
  unfold compare?
  rw [Analysis.value_bind, value_sub hrank]
  rfl

theorem fits_of_fits_compare? {a b : OffsetVector} (hrank : a.length = b.length)
    (h : (a.compare? b).run.fits = true) : ∀ e ∈ a.zip b, (e.1.difference e.2).fits = true := by
  have hsub := Analysis.fits_of_fits_bind h
  unfold sub zipWith at hsub
  rw [if_pos hrank, Analysis.fits_lift] at hsub
  exact (Checked.fits_mapM _ _).1 hsub

@[simp]
theorem sign?_nil : sign? [] = some .eq := rfl

theorem sign?_cons (e : Expr) (es : OffsetVector) :
    sign? (e :: es) = e.toInt?.bind fun i => (sign? es).map (compare i 0).then := by
  unfold sign? toInts?
  rw [List.mapM_cons]
  cases e.toInt? with
  | none => rfl
  | some i =>
    cases List.mapM Expr.toInt? es with
    | none => rfl
    | some is =>
      simp only [Option.pure_def, Option.bind_eq_bind, Option.bind_some, Option.map_some,
        List.map_cons, List.find?_cons]
      cases compare i 0 <;> rfl

theorem isSome_sign?_iff {v : OffsetVector} :
    (sign? v).isSome = true ↔ ∀ e ∈ v, e.toInt?.isSome = true := by
  induction v with
  | nil => simp
  | cons e es ih =>
    rw [sign?_cons, List.forall_mem_cons, ← ih]
    cases e.toInt? <;> simp

theorem compare_toInt?_difference (I : Interpretation Rat) (ρ : String → Rat) {a b : Expr} {i : Int}
    (hfits : (a.difference b).fits = true) (h : (a.difference b).value.toInt? = some i) :
    compare i 0 = Fraction.cmp (a.denote I ρ) (b.denote I ρ) := by
  have hdenote := Expr.denote_difference I ρ hfits
  cases he : (a.difference b).value with
  | num q =>
    rw [he] at h hdenote
    have hq : q = i := Fraction.toInt?_eq_some_iff.1 h
    rw [Expr.denote, hq, Rat.cast_intCast] at hdenote
    unfold Fraction.cmp
    split
    · next hlt =>
      have hneg : (i : Rat) < 0 := by linarith
      rw [compare_lt_iff_lt]
      exact_mod_cast hneg
    · split
      · next heq =>
        have hzero : (i : Rat) = 0 := by linarith
        rw [compare_eq_iff_eq]
        exact_mod_cast hzero
      · next hnlt hne =>
        have hpos : (0 : Rat) < i := by
          rcases lt_trichotomy (a.denote I ρ) (b.denote I ρ) with hlt | heq | hgt
          · exact absurd hlt hnlt
          · exact absurd heq hne
          · linarith
        rw [compare_gt_iff_gt]
        exact_mod_cast hpos
  | _ =>
    rw [he] at h
    cases h

theorem compareLex_denote (I : Interpretation Rat) (ρ : String → Rat) {a b : OffsetVector}
    {o : Ordering} (hrank : a.length = b.length)
    (hfits : ∀ e ∈ a.zip b, (e.1.difference e.2).fits = true)
    (h : sign? ((a.zip b).map fun e => (e.1.difference e.2).value) = some o) :
    List.compareLex Fraction.cmp (a.map (Expr.denote I ρ)) (b.map (Expr.denote I ρ)) = o := by
  induction a generalizing b o with
  | nil =>
    cases b with
    | nil => simpa [List.compareLex_nil_nil] using h
    | cons y b => simp at hrank
  | cons x a ih =>
    cases b with
    | nil => simp at hrank
    | cons y b =>
      rw [List.zip_cons_cons, List.map_cons, sign?_cons] at h
      simp only [Option.bind_eq_some_iff, Option.map_eq_some_iff] at h
      obtain ⟨i, hi, o', ho', rfl⟩ := h
      have hhead := hfits (x, y) (by simp)
      have htail := ih (by simpa using hrank) (fun e he => hfits e (by simp [he])) ho'
      rw [List.map_cons, List.map_cons, List.compareLex_cons_cons, htail,
        compare_toInt?_difference I ρ hhead hi]

theorem toInt?_difference_ofInt (i j : Int) :
    (Expr.difference (.ofInt i) (.ofInt j)).value.toInt? = some (i - j) := by
  unfold Expr.difference Expr.ofInt
  split
  · next heq =>
    have hij : i = j := by simpa using heq
    simp [hij, Expr.toInt?, Fraction.toInt?]
  · simp only [Affine.ofExpr, Checked.value_bind, Checked.value_pure]
    have hconstant : ((Affine.ofConstant i).sub (.ofConstant j)).value.isConstant = true := by
      rw [Affine.isConstant_iff_coeff (Affine.reduced_sub (Affine.reduced_ofConstant i) _)]
      simp
    rw [Affine.toExpr_of_isConstant hconstant, Expr.toInt?, Fraction.toInt?_eq_some_iff]
    simp [Affine.ofConstant]

theorem sign?_ofInts {is js : List Int} (hrank : is.length = js.length) :
    sign? (((ofInts is).zip (ofInts js)).map fun e => (e.1.difference e.2).value) =
      some (List.compareLex compare is js) := by
  induction is generalizing js with
  | nil =>
    cases js with
    | nil => rfl
    | cons j js => simp at hrank
  | cons i is ih =>
    cases js with
    | nil => simp at hrank
    | cons j js =>
      have htail := @ih js (by simpa using hrank)
      unfold ofInts at htail ⊢
      rw [List.map_cons, List.map_cons, List.zip_cons_cons, List.map_cons, sign?_cons,
        toInt?_difference_ofInt, htail, List.compareLex_cons_cons]
      have hcompare : compare (i - j) 0 = compare i j := by
        rcases lt_trichotomy i j with hlt | heq | hgt
        · rw [compare_lt_iff_lt.2 hlt, compare_lt_iff_lt.2 (by omega)]
        · rw [compare_eq_iff_eq.2 heq, compare_eq_iff_eq.2 (by omega)]
        · rw [compare_gt_iff_gt.2 hgt, compare_gt_iff_gt.2 (by omega)]
      simp [hcompare]

theorem isSome_sign?_of_affine (I : Interpretation Rat) {a b : OffsetVector}
    (hfits : ∀ e ∈ a.zip b, (e.1.difference e.2).fits = true)
    (haffine : ∀ e ∈ a ++ b, (Affine.ofExpr e).value.isSome = true)
    (hfixed : List.Forall₂ (Expr.DifferByInt I) a b) :
    (sign? ((a.zip b).map fun e => (e.1.difference e.2).value)).isSome = true := by
  rw [isSome_sign?_iff]
  intro e he
  obtain ⟨⟨x, y⟩, hmem, rfl⟩ := List.mem_map.1 he
  obtain ⟨hx, hy⟩ := List.of_mem_zip hmem
  obtain ⟨fx, hfx⟩ := Option.isSome_iff_exists.1 (haffine x (by simp [hx]))
  obtain ⟨fy, hfy⟩ := Option.isSome_iff_exists.1 (haffine y (by simp [hy]))
  obtain ⟨z, hz⟩ := List.forall₂_iff_zip.1 hfixed |>.2 hmem
  rw [Expr.toInt?_difference_of_denote I (hfits _ hmem) hfx hfy hz]
  rfl

/--
Comparing two vectors of the same rank is sound, and complete on affine entries: an answer is the
lexicographic order of their values whatever scalars, array elements and calls stand for, there is
one if all entries are affine and differ by fixed integers, and for integers it is their own order.
-/
theorem compare?_lexicographic (a b : OffsetVector) (hrank : a.length = b.length)
    (hfits : (a.compare? b).run.fits = true) :
    (∀ o, (a.compare? b).run.value = .ok (some o) →
      ∀ (I : Interpretation Rat) (ρ : String → Int),
        List.compareLex Fraction.cmp (a.map (Expr.valueAt I ρ)) (b.map (Expr.valueAt I ρ)) = o) ∧
    (∀ I : Interpretation Rat, (∀ e ∈ a ++ b, (Affine.ofExpr e).value.isSome = true) →
      List.Forall₂ (Expr.DifferByInt I) a b → ∃ o, (a.compare? b).run.value = .ok (some o)) ∧
    (∀ is js, a = ofInts is → b = ofInts js →
      (a.compare? b).run.value = .ok (some (List.compareLex compare is js))) := by
  have hdifference := fits_of_fits_compare? hrank hfits
  rw [value_compare? hrank]
  refine ⟨?_, ?_, ?_⟩
  · intro o ho I ρ
    exact compareLex_denote I _ hrank hdifference (Except.ok.inj ho)
  · intro I haffine hfixed
    have hsome := isSome_sign?_of_affine I hdifference haffine hfixed
    obtain ⟨o, ho⟩ := Option.isSome_iff_exists.1 hsome
    exact ⟨o, by rw [ho]⟩
  · rintro is js rfl rfl
    rw [sign?_ofInts (by simpa [ofInts] using hrank)]

theorem compare?_lexicographic_opaque :
    (compare? [.add [.num 2, .sym "x"], .call "f" [.sym "x"]]
      [.sym "x", .call "f" [.sym "x"]]).run.fits = true ∧
    List.compareLex Fraction.cmp
        ([.add [.num 2, .sym "x"], .call "f" [.sym "x"]].map
          (Expr.valueAt ⟨fun _ _ _ => 0, fun _ _ vs => vs.sum, fun _ => 0⟩ fun _ => 5))
        ([.sym "x", .call "f" [.sym "x"]].map
          (Expr.valueAt ⟨fun _ _ _ => 0, fun _ _ vs => vs.sum, fun _ => 0⟩ fun _ => 5)) = .gt := by
  have hfits : (compare? [.add [.num 2, .sym "x"], .call "f" [.sym "x"]]
      [.sym "x", .call "f" [.sym "x"]]).run.fits = true := by decide +kernel
  have hvalue : (compare? [.add [.num 2, .sym "x"], .call "f" [.sym "x"]]
      [.sym "x", .call "f" [.sym "x"]]).run.value = .ok (some .gt) := by decide +kernel
  exact ⟨hfits, (compare?_lexicographic _ _ (by rfl) hfits).1 .gt hvalue _ _⟩

end OffsetVector

end Stencil
