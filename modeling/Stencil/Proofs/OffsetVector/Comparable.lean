import Stencil.Proofs.Access
import Stencil.Proofs.Expr.Closure

/-!
This module contains the fact that vectors that can be compared with a third one can be compared
with each other. Whether the difference of two entries is found to be an integer depends on the
pair: equal entries always cancel, affine ones do if their scalars do, and others never. Canonical
entries that differ by integers from the same one are either all equal or all affine, so this is an
equivalence.
-/

namespace Stencil

namespace Affine

theorem toInt?_sub_eq_some_iff {a b : Affine} (ha : a.Reduced) {i : Int} :
    (a.sub b).value.toInt? = some i ↔
      (∀ s, a.coeff s = b.coeff s) ∧ a.constant = b.constant + i := by
  have hconstant : (a.sub b).value.isConstant = true ↔ ∀ s, a.coeff s = b.coeff s := by
    rw [isConstant_iff_coeff (reduced_sub ha b)]
    simp only [coeff_sub, sub_eq_zero]
  rw [← hconstant]
  unfold toInt? toConstant?
  split
  · next h => simp [h, Fraction.toInt?_eq_some_iff, sub_eq_iff_eq_add']
  · next h => simp [h]

theorem toInt?_sub_add {a b c : Affine} (ha : a.Reduced) (hb : b.Reduced) {i j : Int}
    (hi : (a.sub b).value.toInt? = some i) (hj : (b.sub c).value.toInt? = some j) :
    (a.sub c).value.toInt? = some (i + j) := by
  rw [toInt?_sub_eq_some_iff ha] at hi ⊢
  rw [toInt?_sub_eq_some_iff hb] at hj
  refine ⟨fun s => (hi.1 s).trans (hj.1 s), ?_⟩
  rw [hi.2, hj.2, Int.cast_add, add_assoc, add_comm (j : Rat)]

end Affine

namespace Expr

theorem Canonical.toInt?_difference_add {x y z : Expr} (hx : x.Canonical) (hy : y.Canonical)
    (hz : z.Canonical) {i j : Int} (hi : (x.difference y).value.toInt? = some i)
    (hj : (y.difference z).value.toInt? = some j) :
    (x.difference z).value.toInt? = some (i + j) := by
  -- Expressions that differ by an integer are affine, unless they are equal.
  have haffine {x y : Expr} (hx : x.Canonical) (hy : y.Canonical) (hne : x ≠ y) {i : Int}
      (hi : (x.difference y).value.toInt? = some i) :
      (∃ a, (Affine.ofExpr x).value = some a) ∧ ∃ b, (Affine.ofExpr y).value = some b := by
    apply exists_affine_of_not_none
    intro hnone
    rw [hx.toInt?_difference hy hne hnone] at hi
    cases hi
  by_cases hxy : x = y
  · rw [hxy, toInt?_difference_self] at hi
    rw [hxy, hj, ← Option.some.inj hi, Int.zero_add]
  · by_cases hyz : y = z
    · rw [hyz, toInt?_difference_self] at hj
      rw [← hyz, hi, ← Option.some.inj hj, Int.add_zero]
    · obtain ⟨⟨a, ha⟩, b, hb⟩ := haffine hx hy hxy hi
      obtain ⟨-, c, hc⟩ := haffine hy hz hyz hj
      rw [toInt?_difference_of_affine ha hb] at hi
      rw [toInt?_difference_of_affine hb hc] at hj
      rw [toInt?_difference_of_affine ha hc]
      exact Affine.toInt?_sub_add (Affine.reduced_ofExpr x ha) (Affine.reduced_ofExpr y hb) hi hj

end Expr

theorem orderChain_eq : OrderChain .eq .eq .eq := by simp [OrderChain]

theorem orderChain_compare (i j : Int) :
    OrderChain (compare i 0) (compare j 0) (compare (i + j) 0) := by
  unfold OrderChain
  simp only [Int.compare_eq_ite_lt]
  grind

namespace TimedAccess

open OffsetVector (sign?)

theorem toInt?_difference_add {x y z : Expr} (hx : x.Canonical) (hy : y.Canonical)
    (hz : z.Canonical) {d : Direction} {i j : Int}
    (hi : (difference x y d).value.toInt? = some i)
    (hj : (difference y z d).value.toInt? = some j) :
    (difference x z d).value.toInt? = some (i + j) := by
  cases d with
  | forward => exact hx.toInt?_difference_add hy hz hi hj
  | backward =>
    rw [Int.add_comm]
    exact hz.toInt?_difference_add hy hx hj hi

theorem sign?_offsets_chain {xs ys zs : List Expr} (hxs : ∀ x ∈ xs, x.Canonical)
    (hys : ∀ y ∈ ys, y.Canonical) (hzs : ∀ z ∈ zs, z.Canonical) (hxy : xs.length = ys.length)
    (hyz : ys.length = zs.length) {ds : List Direction} {o p : Ordering}
    (ho : sign? (offsets ds xs ys) = some o) (hp : sign? (offsets ds ys zs) = some p) :
    ∃ q, sign? (offsets ds xs zs) = some q ∧ OrderChain o p q := by
  induction ds generalizing xs ys zs o p with
  | nil =>
    cases ho
    cases hp
    exact ⟨.eq, rfl, orderChain_eq⟩
  | cons d ds ih =>
    cases ys with
    | nil =>
      obtain rfl := List.eq_nil_of_length_eq_zero hxy
      obtain rfl := List.eq_nil_of_length_eq_zero hyz.symm
      cases ho
      cases hp
      exact ⟨.eq, rfl, orderChain_eq⟩
    | cons y ys =>
      obtain ⟨x, xs, rfl⟩ := List.exists_cons_of_length_eq_add_one hxy
      obtain ⟨z, zs, rfl⟩ := List.exists_cons_of_length_eq_add_one hyz.symm
      rw [List.forall_mem_cons] at hxs hys hzs
      rw [offsets, OffsetVector.sign?_cons] at ho hp ⊢
      simp only [Option.bind_eq_some_iff, Option.map_eq_some_iff] at ho hp
      obtain ⟨i, hi, o, ho, rfl⟩ := ho
      obtain ⟨j, hj, p, hp, rfl⟩ := hp
      obtain ⟨q, hq, hchain⟩ :=
        ih hxs.2 hys.2 hzs.2 (by simpa using hxy) (by simpa using hyz) ho hp
      refine ⟨_, ?_, (orderChain_compare i j).lex hchain⟩
      rw [toInt?_difference_add hxs.1 hys.1 hzs.1 hi hj, hq]
      rfl

end TimedAccess

namespace OffsetVector

theorem map_difference_eq_offsets (a b : OffsetVector) {n : Nat} (hn : a.length = n) :
    ((a.zip b).map fun e => (e.1.difference e.2).value) =
      TimedAccess.offsets (List.replicate n .forward) a b := by
  rw [TimedAccess.offsets_eq_map]
  induction a generalizing b n with
  | nil => rfl
  | cons x a ih =>
    cases b with
    | nil => rfl
    | cons y b =>
      subst hn
      simpa [List.replicate_succ, TimedAccess.difference] using ih b rfl

theorem sub_self (a : OffsetVector) : a.sub a = pure (List.replicate a.length (.num 0)) := by
  have hentries : (a.zip a).mapM (fun e => e.1.difference e.2) =
      pure (List.replicate a.length (.num 0)) := by
    induction a with
    | nil => rfl
    | cons x a ih =>
      rw [List.zip_cons_cons, List.mapM_cons, Expr.difference_self, pure_bind, ih, pure_bind]
      rfl
  unfold sub zipWith
  rw [if_pos rfl, hentries]
  rfl

theorem compare?_self (a : OffsetVector) : a.compare? a = pure (some .eq) := by
  unfold compare?
  have hzero : isZero (List.replicate a.length (.num 0)) = true := by
    rw [isZero, List.all_replicate]
    simp [Expr.toInt?, Fraction.toInt?]
  rw [sub_self, pure_bind, sign?_eq_eq_iff.2 hzero]

/--
Whether vectors of canonical entries can be compared is an equivalence, and where they can be they
are ordered: a vector equals itself, swapping two of them swaps the answer or its absence, and
answers for two pairs determine the one for their ends unless they point in opposite directions.
-/
theorem compare?_chain (a b c : OffsetVector) (hab : a.length = b.length)
    (hbc : b.length = c.length) (hcanonical : ∀ e ∈ a ++ b ++ c, e.Canonical) :
    a.compare? a = pure (some .eq) ∧
    ∃ ab ba bc ac : Option Ordering,
      (a.compare? b).run.value = .ok ab ∧ (b.compare? a).run.value = .ok ba ∧
      (b.compare? c).run.value = .ok bc ∧ (a.compare? c).run.value = .ok ac ∧
      ab = ba.map Ordering.swap ∧
      ∀ o p, ab = some o → bc = some p → ∃ q, ac = some q ∧
        (o.isLE → p.isLE → ¬(o = .eq ∧ p = .eq) → q = .lt) ∧
        (o.isGE → p.isGE → ¬(o = .eq ∧ p = .eq) → q = .gt) ∧
        (o = .eq → p = .eq → q = .eq) := by
  simp only [List.forall_mem_append] at hcanonical
  obtain ⟨⟨ha, hb⟩, hc⟩ := hcanonical
  refine ⟨compare?_self a, _, _, _, _, value_compare? hab, value_compare? hab.symm,
    value_compare? hbc, value_compare? (hab.trans hbc), ?_, ?_⟩
  · rw [map_difference_eq_offsets a b hab, map_difference_eq_offsets b a rfl]
    refine TimedAccess.sign?_offsets_swap ?_ _
    rw [List.forall₂_iff_zip]
    exact ⟨hab.symm, fun hmem =>
      (hb _ (List.of_mem_zip hmem).1).reversible (ha _ (List.of_mem_zip hmem).2)⟩
  · intro o p ho hp
    rw [map_difference_eq_offsets a b hab] at ho
    rw [map_difference_eq_offsets b c rfl] at hp
    rw [map_difference_eq_offsets a c hab]
    obtain ⟨q, hq, heq, heq', hsame⟩ := TimedAccess.sign?_offsets_chain ha hb hc hab hbc ho hp
    refine ⟨q, hq, ?_⟩
    cases o <;> cases p <;> simp_all

/-- The indices `(x + k, f(x))`, whose second one is not affine. -/
def shifted (k : Rat) : OffsetVector := [.add [.num k, .sym "x"], .call "f" [.sym "x"]]

theorem canonical_shifted {k : Rat} (hk : k ≠ 0) : ∀ e ∈ shifted k, e.Canonical :=
  Expr.canonical_pair
    (.add (Expr.canonical_pair (.num k) (.sym "x")) (Expr.arguments_num_sym rfl rfl (by simpa)))
    (.call "f" (by simp [Expr.Canonical.sym]))

theorem compare?_chain_shifted :
    (∀ e ∈ shifted 3 ++ shifted 2 ++ shifted 1, e.Canonical) ∧
      ((shifted 3).compare? (shifted 1)).run.value = .ok (some .gt) := by
  have hcanonical : ∀ e ∈ shifted 3 ++ shifted 2 ++ shifted 1, e.Canonical := by
    simp only [List.forall_mem_append]
    exact ⟨⟨canonical_shifted (by norm_num), canonical_shifted (by norm_num)⟩,
      canonical_shifted (by norm_num)⟩
  have hfirst : ((shifted 3).compare? (shifted 2)).run.value = .ok (some .gt) := by decide +kernel
  have hsecond : ((shifted 2).compare? (shifted 1)).run.value = .ok (some .gt) := by decide +kernel
  obtain ⟨-, ab, -, bc, ac, hab, -, hbc, hac, -, hchain⟩ :=
    compare?_chain (shifted 3) (shifted 2) (shifted 1) rfl rfl hcanonical
  obtain rfl := Except.ok.inj (hab.symm.trans hfirst)
  obtain rfl := Except.ok.inj (hbc.symm.trans hsecond)
  obtain ⟨q, rfl, -, hgreater, -⟩ := hchain .gt .gt rfl rfl
  refine ⟨hcanonical, ?_⟩
  rw [hac, hgreater rfl rfl (by decide)]

end OffsetVector

end Stencil
