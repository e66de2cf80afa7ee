import Mathlib.Algebra.Group.Pi.Basic
import Stencil.LoweredEquation
import Stencil.Proofs.Access

/-!
This module contains points of the iteration and uniform references, whose indices are the
dimensions of their arrays shifted by constants. The distance of two uniform references is the
distance of the points at which they are to the same element.
-/

namespace Stencil

abbrev Point := Dimension → Int

def Direction.signed : Direction → Int → Int
  | forward, i => i
  | backward, i => -i

/-- Where a point is along some loops. The point that comes first has the smaller coordinates. -/
def Point.coordinates (loops : List (Dimension × Direction)) (p : Point) : List Int :=
  loops.map fun l => l.2.signed (p l.1)

theorem Direction.signed_sub (d : Direction) (i j : Int) :
    d.signed (i - j) = d.signed i - d.signed j := by
  cases d with
  | forward => rfl
  | backward => simp only [signed]; omega

namespace OffsetVector

theorem sign?_ofInts_cons (i : Int) (is : List Int) :
    sign? (ofInts (i :: is)) = (sign? (ofInts is)).map (compare i 0).then := by
  unfold ofInts
  rw [List.map_cons, sign?_cons, Expr.toInt?_ofInt, Option.bind_some]

theorem isSome_sign?_ofInts (is : List Int) : (sign? (ofInts is)).isSome = true := by
  induction is with
  | nil => rfl
  | cons i is ih => rw [sign?_ofInts_cons, Option.isSome_map, ih]

theorem value_compareScalar?_ofInts (is : List Int) :
    (compareScalar? (ofInts is) (.ofInt 0)).value = sign? (ofInts is) := by
  unfold compareScalar?
  rw [Checked.value_bind, Checked.value_pure, Checked.value_mapM]
  induction is with
  | nil => rfl
  | cons i is ih =>
    have hi := toInt?_difference_ofInt i 0
    unfold ofInts at ih ⊢
    rw [List.map_cons, List.map_cons, sign?_cons, hi, ih, Option.bind_some, sub_zero]
    exact (sign?_ofInts_cons i is).symm

theorem sign?_coordinates_eq_gt (loops : List (Dimension × Direction)) (p q : Point) :
    sign? (ofInts (Point.coordinates loops (q - p))) = some .gt ↔
      Point.coordinates loops p < Point.coordinates loops q := by
  unfold Point.coordinates
  induction loops with
  | nil => simp [ofInts]
  | cons l loops ih =>
    obtain ⟨o, ho⟩ := Option.isSome_iff_exists.1
      (isSome_sign?_ofInts (loops.map fun l => l.2.signed ((q - p) l.1)))
    rw [List.map_cons, List.map_cons, List.map_cons, sign?_ofInts_cons, List.cons_lt_cons_iff, ← ih,
      ho, Pi.sub_apply, Direction.signed_sub, Option.map_some, Option.some_inj, Option.some_inj]
    rcases lt_trichotomy (l.2.signed (p l.1)) (l.2.signed (q l.1)) with hlt | heq | hgt
    · rw [compare_gt_iff_gt.2 (by omega)]
      simp [hlt]
    · rw [compare_eq_iff_eq.2 (by omega)]
      simp [heq]
    · rw [compare_lt_iff_lt.2 (by omega)]
      simp
      omega

end OffsetVector

namespace Expr

def shift? (d : Dimension) (e : Expr) : Option Int :=
  (Affine.ofExpr e).value.bind fun form => (form.sub (.ofSymbol d.name)).value.toInt?

theorem shift?_eq_some_iff {d : Dimension} {e : Expr} {k : Int} :
    e.shift? d = some k ↔ ∃ form, (Affine.ofExpr e).value = some form ∧ form.constant = k ∧
      ∀ s, form.coeff s = if d.name = s then 1 else 0 := by
  have hforms {form : Affine} (hreduced : form.Reduced) :
      (form.sub (.ofSymbol d.name)).value.toInt? = some k ↔
        form.constant = k ∧ ∀ s, form.coeff s = if d.name = s then 1 else 0 := by
    have hconstant := Affine.isConstant_iff_coeff (Affine.reduced_sub hreduced (.ofSymbol d.name))
    simp only [Affine.coeff_sub, Affine.coeff_ofSymbol, sub_eq_zero] at hconstant
    have hzero : (Affine.ofSymbol d.name).constant = 0 := rfl
    unfold Affine.toInt? Affine.toConstant?
    split
    · next h =>
      rw [Option.bind_some, Fraction.toInt?_eq_some_iff, Affine.constant_sub, hzero, sub_zero]
      exact ⟨fun hk => ⟨hk, hconstant.1 h⟩, fun hk => hk.1⟩
    · next h =>
      constructor
      · intro hk
        cases hk
      · intro hk
        exact absurd (hconstant.2 hk.2) h
  unfold shift?
  rw [Option.bind_eq_some_iff]
  constructor
  · rintro ⟨form, hform, hint⟩
    exact ⟨form, hform, (hforms (Affine.reduced_ofExpr e hform)).1 hint⟩
  · rintro ⟨form, hform, hint⟩
    exact ⟨form, hform, (hforms (Affine.reduced_ofExpr e hform)).2 hint⟩

theorem difference_of_shift? {d : Dimension} {x y : Expr} {k l : Int} (hx : x.shift? d = some k)
    (hy : y.shift? d = some l) : (x.difference y).value = .ofInt (k - l) := by
  obtain ⟨a, ha, hak, hacoeff⟩ := shift?_eq_some_iff.1 hx
  obtain ⟨b, hb, hbl, hbcoeff⟩ := shift?_eq_some_iff.1 hy
  have hconstant : (a.sub b).value.isConstant = true := by
    rw [Affine.isConstant_iff_coeff (Affine.reduced_sub (Affine.reduced_ofExpr x ha) b)]
    intro s
    rw [Affine.coeff_sub, hacoeff, hbcoeff, sub_self]
  unfold difference
  split
  · next heq =>
    rw [heq, hy] at hx
    simp [Option.some_inj.1 hx, ofInt]
  · simp only [Checked.value_bind, ha, hb]
    rw [Affine.toExpr_of_isConstant hconstant, Affine.constant_sub, hak, hbl]
    simp [ofInt]

end Expr

def Expr.IsRegular (d : Dimension) (e : Expr) : Prop :=
  ∃ form, (Affine.ofExpr e).value = some form ∧ ∀ s, s ≠ d.name → form.coeff s = 0

namespace Access

theorem value_isRegularIndex_iff {d : Dimension} {e : Expr} :
    (isRegularIndex d e).value = true ↔ e.IsRegular d := by
  unfold isRegularIndex Expr.IsRegular
  rw [Checked.value_bind]
  cases hform : (Affine.ofExpr e).value with
  | none => simp
  | some form =>
    have hreduced := Affine.reduced_ofExpr e hform
    simp only [Checked.value_pure, List.all_eq_true, beq_iff_eq, Option.some.injEq,
      exists_eq_left']
    constructor
    · intro h s hne
      rw [Affine.coeff_eq_zero_iff hreduced, OrdMap.find?_eq_none_iff]
      exact fun hs => hne (h s hs)
    · intro h s hs
      apply Classical.byContradiction
      intro hne
      exact OrdMap.find?_eq_none_iff.1 ((Affine.coeff_eq_zero_iff hreduced).1 (h s hne)) hs

theorem value_isRegularIndex {d : Dimension} {e : Expr} {k : Int} (h : e.shift? d = some k) :
    (isRegularIndex d e).value = true := by
  obtain ⟨form, hform, -, hcoeff⟩ := Expr.shift?_eq_some_iff.1 h
  refine value_isRegularIndex_iff.2 ⟨form, hform, ?_⟩
  intro s hne
  rw [hcoeff, if_neg hne.symm]

end Access

namespace OffsetVector

def Uniform (ds : List Dimension) (v : OffsetVector) : Prop :=
  List.Forall₂ (fun d e => ∃ k, Expr.shift? d e = some k) ds v

instance (ds : List Dimension) (v : OffsetVector) : Decidable (Uniform ds v) :=
  decidable_of_iff (List.Forall₂ (fun d e => (Expr.shift? d e).isSome = true) ds v) (by
    simp only [Uniform, Option.isSome_iff_exists])

def cell (p : Point) (ds : List Dimension) (v : OffsetVector) : List Int :=
  List.zipWith (fun d e => p d + (e.shift? d).getD 0) ds v

theorem Uniform.reversible {ds : List Dimension} {xs ys : OffsetVector} (hx : Uniform ds xs)
    (hy : Uniform ds ys) : List.Forall₂ Expr.Reversible xs ys := by
  have haffine {d : Dimension} {e : Expr} {k : Int} (he : e.shift? d = some k) :
      (Affine.ofExpr e).value.isSome = true := by
    obtain ⟨form, hform, -⟩ := Expr.shift?_eq_some_iff.1 he
    rw [hform]
    rfl
  induction hx generalizing ys with
  | nil =>
    cases hy
    exact .nil
  | cons hx _ ih =>
    cases hy with
    | cons hy hys =>
      obtain ⟨k, hk⟩ := hx
      obtain ⟨l, hl⟩ := hy
      exact .cons (.of_affine (haffine hk) (haffine hl)) (ih hys)

theorem exists_cell_eq {ds : List Dimension} {xs ys : List Expr} (hnodup : ds.Nodup)
    (hx : Uniform ds xs) (hy : Uniform ds ys) : ∃ q, cell 0 ds xs = cell q ds ys := by
  unfold cell
  induction hx generalizing ys with
  | nil =>
    cases hy
    exact ⟨0, rfl⟩
  | @cons d x ds xs _ _ ih =>
    cases hy with
    | @cons _ y _ ys _ hys =>
      rw [List.nodup_cons] at hnodup
      obtain ⟨q, hq⟩ := ih hnodup.2 hys
      -- The value along `d` is free, since `d` is none of the other dimensions.
      refine ⟨Function.update q d ((x.shift? d).getD 0 - (y.shift? d).getD 0), ?_⟩
      rw [List.zipWith_cons_cons, List.zipWith_cons_cons, hq, Function.update_self]
      congr 1
      · simp
      · apply List.ext_getElem
        · simp
        · intro i hi _
          simp only [List.length_zipWith] at hi
          have hne : ds[i] ≠ d := fun h => hnodup.1 (h ▸ List.getElem_mem _)
          simp [Function.update_of_ne hne]

end OffsetVector

namespace TimedAccess

open OffsetVector (Uniform cell)

theorem difference_of_shift? {d : Dimension} {x y : Expr} {k l : Int} (hx : x.shift? d = some k)
    (hy : y.shift? d = some l) (dir : Direction) :
    (difference x y dir).value = .ofInt (dir.signed (k - l)) := by
  cases dir with
  | forward => exact Expr.difference_of_shift? hx hy
  | backward =>
    rw [difference, Expr.difference_of_shift? hy hx, Direction.signed]
    congr 1
    omega

theorem offsets_of_cell_eq {ds : List Dimension} {dirs : List Direction} {xs ys : List Expr}
    {p q : Point} (hlength : ds.length = dirs.length) (hx : Uniform ds xs) (hy : Uniform ds ys)
    (hcell : cell p ds xs = cell q ds ys) :
    offsets dirs xs ys = .ofInts (Point.coordinates (ds.zip dirs) (q - p)) := by
  unfold cell at hcell
  unfold Point.coordinates
  induction hx generalizing dirs ys with
  | nil =>
    cases dirs with
    | nil => rfl
    | cons dir dirs => simp at hlength
  | @cons d x ds xs hx _ ih =>
    cases hy with
    | @cons _ y _ ys hy hys =>
      cases dirs with
      | nil => simp at hlength
      | cons dir dirs =>
        obtain ⟨k, hk⟩ := hx
        obtain ⟨l, hl⟩ := hy
        rw [List.zipWith_cons_cons, List.zipWith_cons_cons, List.cons.injEq, hk, hl] at hcell
        have htail := ih (by simpa using hlength) hys hcell.2
        have hhead : k - l = (q - p) d := by
          have hsame := hcell.1
          simp only [Option.getD_some] at hsame
          simp only [Pi.sub_apply]
          omega
        rw [offsets, htail, difference_of_shift? hk hl, hhead]
        rfl

end TimedAccess

end Stencil
