import Stencil.Proofs.Affine.Arithmetic
import Stencil.Proofs.OffsetVector

/-!
This module contains the laws of the arithmetic on vectors. Sums, differences and opposites of
affine entries are written in normal form, in whatever way they are computed, so the laws of a group
hold of the vectors as they are written.
-/

namespace Stencil

namespace Affine

variable {a b : Affine}

theorem value_neg_sub (ha : a.Reduced) (hb : b.Reduced) :
    (b.sub a).value.neg.value = (a.sub b).value := by
  apply ext_coeff (reduced_scale (reduced_sub hb a) (-1)) (reduced_sub ha b)
  · simp
  · simp

theorem value_sub_add_sub (ha : a.Reduced) (b c : Affine) :
    ((a.sub b).value.add (b.sub c).value).value = (a.sub c).value := by
  apply ext_coeff (reduced_add (reduced_sub ha b) _) (reduced_sub ha c)
  · simp
  · simp

theorem value_sub_add (ha : a.Reduced) (b : Affine) :
    ((a.sub b).value.add b).value = a := by
  apply ext_coeff (reduced_add (reduced_sub ha b) b) ha
  · simp
  · simp

end Affine

namespace Expr

variable {x y z : Expr} {a b c : Affine}

theorem simplify_plus (hx : (Affine.ofExpr x).value = some a)
    (hy : (Affine.ofExpr y).value = some b) :
    (x.plus y).value.simplify.value = (a.add b).value.toExpr.value :=
  value_simplify (Affine.ofExpr_plus hx hy)

theorem simplify_neg (hcanonical : x.Canonical) (hx : (Affine.ofExpr x).value = some a) :
    x.neg.value.simplify.value = a.neg.value.toExpr.value := by
  apply value_simplify
  rw [Affine.ofExpr_neg hcanonical, hx, Option.map_some]

theorem simplify_neg_difference (hx : (Affine.ofExpr x).value = some a)
    (hy : (Affine.ofExpr y).value = some b) :
    (y.difference x).value.neg.value.simplify.value = (x.difference y).value := by
  have ha := Affine.reduced_ofExpr x hx
  have hb := Affine.reduced_ofExpr y hy
  have hcanonical : (y.difference x).value.Canonical := by
    rw [value_difference hy hx]
    exact Affine.canonical_toExpr (Affine.reduced_sub hb a)
  rw [simplify_neg hcanonical (ofExpr_difference hy hx), Affine.value_neg_sub ha hb,
    value_difference hx hy]

theorem simplify_difference_plus_difference (hx : (Affine.ofExpr x).value = some a)
    (hy : (Affine.ofExpr y).value = some b) (hz : (Affine.ofExpr z).value = some c) :
    ((x.difference y).value.plus (y.difference z).value).value.simplify.value =
      (x.difference z).value := by
  rw [simplify_plus (ofExpr_difference hx hy) (ofExpr_difference hy hz),
    Affine.value_sub_add_sub (Affine.reduced_ofExpr x hx), value_difference hx hz]

theorem simplify_plus_neg (hcanonical : y.Canonical) (hx : (Affine.ofExpr x).value = some a)
    (hy : (Affine.ofExpr y).value = some b) :
    (x.plus y.neg.value.simplify.value).value.simplify.value = (x.difference y).value := by
  have hneg : (Affine.ofExpr y.neg.value.simplify.value).value = some b.neg.value := by
    rw [simplify_neg hcanonical hy]
    exact Affine.value_ofExpr_toExpr (Affine.reduced_scale (Affine.reduced_ofExpr y hy) (-1))
  rw [simplify_plus hx hneg, value_difference hx hy]
  rfl

theorem simplify_difference_plus (hx : (Affine.ofExpr x).value = some a)
    (hy : (Affine.ofExpr y).value = some b) :
    ((x.difference y).value.plus y).value.simplify.value = x.simplify.value := by
  rw [simplify_plus (ofExpr_difference hx hy) hy,
    Affine.value_sub_add (Affine.reduced_ofExpr x hx), value_simplify hx]

end Expr

namespace OffsetVector

theorem value_add {a b : OffsetVector} (hrank : a.length = b.length) :
    (a.add b).run.value = .ok ((a.zip b).map fun e => (e.1.plus e.2).value.simplify.value) := by
  unfold add zipWith
  rw [if_pos hrank, Analysis.value_lift, Checked.value_mapM]
  rfl

theorem value_neg (a : OffsetVector) : a.neg.value = a.map fun e => e.neg.value.simplify.value := by
  unfold neg
  rw [Checked.value_mapM]
  rfl

/--
Vectors of affine entries obey the laws of a group, as they are written: the opposite of a distance
is the distance of the swapped vectors, distances add up, to subtract is to add the opposite, and
what has been subtracted can be added again. The third law is about canonical entries only: the
opposite of a product sorts its factors, and if these are not sorted yet it may not be affine any
more.
-/
theorem affine_group_laws (a b c : OffsetVector) (hab : a.length = b.length)
    (hbc : b.length = c.length)
    (haffine : ∀ e ∈ a ++ b ++ c, (Affine.ofExpr e).value.isSome = true) :
    ∃ ab ba bc ac : OffsetVector,
      (a.sub b).run.value = .ok ab ∧ (b.sub a).run.value = .ok ba ∧
      (b.sub c).run.value = .ok bc ∧ (a.sub c).run.value = .ok ac ∧
      ab = ba.neg.value ∧
      (ab.add bc).run.value = .ok ac ∧
      ((∀ e ∈ b, e.Canonical) → (a.add b.neg.value).run.value = .ok ab) ∧
      (ab.add b).run.value = .ok (a.map fun e => e.simplify.value) := by
  simp only [List.forall_mem_append, Option.isSome_iff_exists] at haffine
  obtain ⟨⟨ha, hb⟩, hc⟩ := haffine
  have hac := hab.trans hbc
  refine ⟨_, _, _, _, value_sub hab, value_sub hab.symm, value_sub hbc, value_sub hac,
    ?_, ?_, ?_, ?_⟩
  · rw [value_neg, List.map_map]
    apply List.ext_getElem (by simp [hab])
    intro i _ _
    simp only [List.getElem_map, List.getElem_zip, Function.comp_apply]
    obtain ⟨x, hx⟩ := ha _ (List.getElem_mem _)
    obtain ⟨y, hy⟩ := hb _ (List.getElem_mem _)
    exact (Expr.simplify_neg_difference hx hy).symm
  · rw [value_add (by simp [hab, hbc])]
    congr 1
    apply List.ext_getElem (by simp [hab, hbc])
    intro i _ _
    simp only [List.getElem_map, List.getElem_zip]
    obtain ⟨x, hx⟩ := ha _ (List.getElem_mem _)
    obtain ⟨y, hy⟩ := hb _ (List.getElem_mem _)
    obtain ⟨z, hz⟩ := hc _ (List.getElem_mem _)
    exact Expr.simplify_difference_plus_difference hx hy hz
  · intro hcanonical
    rw [value_neg, value_add (by simp [hab])]
    congr 1
    apply List.ext_getElem (by simp)
    intro i _ _
    simp only [List.getElem_map, List.getElem_zip]
    obtain ⟨x, hx⟩ := ha _ (List.getElem_mem _)
    obtain ⟨y, hy⟩ := hb _ (List.getElem_mem _)
    exact Expr.simplify_plus_neg (hcanonical _ (List.getElem_mem _)) hx hy
  · rw [value_add (by simp [hab])]
    congr 1
    apply List.ext_getElem (by simp [hab])
    intro i _ _
    simp only [List.getElem_map, List.getElem_zip]
    obtain ⟨x, hx⟩ := ha _ (List.getElem_mem _)
    obtain ⟨y, hy⟩ := hb _ (List.getElem_mem _)
    exact Expr.simplify_difference_plus hx hy

section Fractions

/-- The vector `(x + 1/2, 2 y - x)`. -/
def leading : OffsetVector :=
  [.add [.num (1 / 2), .sym "x"], .add [.mul [.num (-1), .sym "x"], .mul [.num 2, .sym "y"]]]

/-- The vector `((x + 1) / 2, y)`. -/
def trailing : OffsetVector :=
  [.add [.num (1 / 2), .mul [.num (1 / 2), .sym "x"]], .sym "y"]

theorem canonical_trailing : ∀ e ∈ trailing, e.Canonical := by
  have hhalf : (Expr.mul [.num (1 / 2), .sym "x"]).Canonical :=
    .mul (Expr.canonical_pair (.num _) (.sym _)) (Expr.arguments_num_sym rfl rfl (by norm_num))
  have hfirst : (Expr.add [.num (1 / 2), .mul [.num (1 / 2), .sym "x"]]).Canonical := by
    refine .add (Expr.canonical_pair (.num _) hhalf) ⟨?_, ?_, ?_, ?_, ?_⟩
    all_goals decide +kernel
  exact Expr.canonical_pair hfirst (.sym "y")

theorem affine_group_laws_fractions :
    (∀ e ∈ leading ++ trailing ++ leading, (Affine.ofExpr e).value.isSome = true) ∧
      (∀ e ∈ trailing, e.Canonical) ∧
      (leading.sub trailing).run.value =
        .ok [.mul [.num (1 / 2), .sym "x"], .add [.sym "y", .mul [.num (-1), .sym "x"]]] ∧
      (leading.add trailing.neg.value).run.value =
        .ok [.mul [.num (1 / 2), .sym "x"], .add [.sym "y", .mul [.num (-1), .sym "x"]]] := by
  have haffine : ∀ e ∈ leading ++ trailing ++ leading,
      (Affine.ofExpr e).value.isSome = true := by
    decide +kernel
  have hvalue : (leading.sub trailing).run.value =
      .ok [.mul [.num (1 / 2), .sym "x"], .add [.sym "y", .mul [.num (-1), .sym "x"]]] := by
    decide +kernel
  obtain ⟨ab, -, -, -, hab, -, -, -, -, -, hadd, -⟩ :=
    affine_group_laws leading trailing leading rfl rfl haffine
  refine ⟨haffine, canonical_trailing, hvalue, ?_⟩
  rw [hadd canonical_trailing, ← hab, hvalue]

end Fractions

section Vanishing

/-- The factor `z - z`. -/
def vanishing : Expr := .add [.sym "z", .mul [.num (-1), .sym "z"]]

theorem denote_vanishing (I : Interpretation Rat) (ρ : String → Rat) :
    vanishing.denote I ρ = 0 := by
  simp [vanishing, Expr.denote]

/--
A product with a factor of zero. If this factor stands first, then the product has an affine form
but its opposite, in which factors are sorted, has none, and to subtract it is not to add the
opposite. If the factors are sorted, then the product has no form either, although it is zero
everywhere, and what has been subtracted cannot be added again.
-/
theorem affine_group_laws_fail_vanishing :
    (let w : OffsetVector := [.sym "w"]
      let b : OffsetVector := [.mul [vanishing, .sym "x", .sym "y"]]
      (∀ e ∈ w ++ b, (Affine.ofExpr e).value.isSome = true) ∧ (w.sub b).run.value = .ok w ∧
        (w.add b.neg.value).run.value =
          .ok [.add [.sym "w", .mul [.num (-1), .sym "x", .sym "y", vanishing]]]) ∧
      let w : OffsetVector := [.sym "w"]
      let b : OffsetVector := [.mul [.sym "x", .sym "y", vanishing]]
      (∀ e ∈ b, e.Canonical ∧ ∀ I ρ, e.denote (K := Rat) I ρ = 0) ∧
        ∃ wb, (w.sub b).run.value = .ok wb ∧
          (wb.add b).run.value ≠ .ok (w.map fun e => e.simplify.value) := by
  refine ⟨⟨by decide +kernel, by decide +kernel, by decide +kernel⟩, ?_, _, rfl, by decide +kernel⟩
  have hopposite : (Expr.mul [.num (-1), .sym "z"]).Canonical :=
    .mul (Expr.canonical_pair (.num _) (.sym _)) (Expr.arguments_num_sym rfl rfl (by norm_num))
  have hvanishing : vanishing.Canonical := by
    refine .add (Expr.canonical_pair (.sym _) hopposite) ⟨?_, ?_, ?_, ?_, ?_⟩ <;> decide +kernel
  rw [List.forall_mem_singleton]
  constructor
  · refine .mul (by simp [Expr.Canonical.sym, hvanishing]) ⟨?_, ?_, ?_, ?_, ?_⟩ <;> decide +kernel
  · intro I ρ
    simp [Expr.denote, denote_vanishing]

end Vanishing

end OffsetVector

end Stencil
