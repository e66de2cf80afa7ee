import Stencil.Proofs.Expr.Within
import Stencil.Proofs.Loops

/-!
This module contains the reflection of equations along a dimension `d`: each index `d + k` becomes
`d - k`. Terms and factors are sorted again afterwards, so an equation may read the reflected array
elements in another order.
-/

namespace Stencil

namespace Affine

mutual

theorem references_of_ofExpr (e : Expr) {a : Affine} (h : (ofExpr e).value = some a) :
    e.references = [] := by
  cases e with
  | num q => rfl
  | sym t => rfl
  | access f is => cases h
  | add ts => exact references_of_ofSum ts h
  | mul fs => exact references_of_ofProduct fs h
  | pow b n =>
    obtain ⟨c, hb, -⟩ := ofExpr_pow_eq_some h
    exact references_of_ofExpr b hb
  | call t as => cases h

theorem references_of_ofSum (es : List Expr) {acc a : Affine}
    (h : (ofSum acc es).value = some a) : Expr.referencesOfList es = [] := by
  cases es with
  | nil => rfl
  | cons e es =>
    obtain ⟨b, hb, hes, -⟩ := ofSum_cons_eq_some h
    rw [Expr.referencesOfList, references_of_ofExpr e hb, references_of_ofSum es hes]
    rfl

theorem references_of_ofProduct (es : List Expr) {acc a : Affine}
    (h : (ofProduct acc es).value = some a) : Expr.referencesOfList es = [] := by
  cases es with
  | nil => rfl
  | cons e es =>
    obtain ⟨b, acc', hb, -, hes, -⟩ := ofProduct_cons_eq_some h
    rw [Expr.referencesOfList, references_of_ofExpr e hb, references_of_ofProduct es hes]
    rfl

end

end Affine

namespace Expr

variable {d : Dimension}

def shifted (d : Dimension) (k : Int) : Expr := (plus (ofDimension d) (ofInt k)).value

theorem shifted_zero (d : Dimension) : shifted d 0 = ofDimension d := by
  simp [shifted, plus, sum, ofDimension, ofInt, terms, foldNumbers, isNumber, ofTerms, sort, sortBy,
    insertBy]

theorem shifted_of_ne {k : Int} (hk : k ≠ 0) : shifted d k = add [num k, ofDimension d] := by
  have hlt : (compare 1 0).isLE = false := rfl
  simp [shifted, plus, sum, ofDimension, ofInt, terms, foldNumbers, isNumber, ofTerms, sort, sortBy,
    insertBy, hk, Expr.cmp, rank, hlt]

theorem shift?_shifted (d : Dimension) (k : Int) : (shifted d k).shift? d = some k := by
  rw [shift?_eq_some_iff]
  by_cases hk : k = 0
  · subst hk
    rw [shifted_zero]
    refine ⟨_, rfl, rfl, ?_⟩
    intro s
    rw [Affine.coeff_ofSymbol]
  · rw [shifted_of_ne hk]
    refine ⟨_, rfl, ?_, ?_⟩
    · simp [Affine.constant_add, Affine.ofConstant, Affine.ofSymbol]
    · intro s
      simp [Affine.coeff_add, Affine.coeff_ofConstant, Affine.coeff_ofSymbol]

def mirrorIndex (d : Dimension) (e : Expr) : Expr := (e.shift? d).elim e fun k => shifted d (-k)

theorem mirrorIndex_of_shift? {e : Expr} {k : Int} (h : e.shift? d = some k) :
    mirrorIndex d e = shifted d (-k) := by
  rw [mirrorIndex, h, Option.elim_some]

theorem shift?_mirrorIndex {e : Expr} {k : Int} (h : e.shift? d = some k) :
    (mirrorIndex d e).shift? d = some (-k) := by
  rw [mirrorIndex_of_shift? h, shift?_shifted]

theorem references_of_shift? {e : Expr} {k : Int} (h : e.shift? d = some k) :
    e.references = [] := by
  obtain ⟨form, hform, -⟩ := shift?_eq_some_iff.1 h
  exact Affine.references_of_ofExpr e hform

theorem mem_symbols_of_shift? {e : Expr} {k : Int} (h : e.shift? d = some k) :
    d.name ∈ e.symbols := by
  obtain ⟨form, hform, -, hcoeff⟩ := shift?_eq_some_iff.1 h
  apply Classical.byContradiction
  intro hnot
  have hzero := Affine.coeff_ofExpr e hform hnot
  rw [hcoeff, if_pos rfl] at hzero
  exact one_ne_zero hzero

def mirrorIndices (d : Dimension) : List Dimension → List Expr → List Expr
  | e :: es, i :: is => (if e = d then mirrorIndex d i else i) :: mirrorIndices d es is
  | _, is => is

mutual

/--
Reflects the indices along `d` of all array elements outside of index functions. Sums and products
are put in order again.
-/
def mirror (d : Dimension) : Expr → Expr
  | num q => num q
  | sym s => sym s
  | access f is => access f (mirrorIndices d f.dimensions is)
  | add ts => add (sort (mirrorList d ts))
  | mul fs => mul (sort (mirrorList d fs))
  | pow b n => pow (mirror d b) n
  | call s as => call s (mirrorList d as)

def mirrorList (d : Dimension) : List Expr → List Expr
  | [] => []
  | e :: es => mirror d e :: mirrorList d es

end

@[simp]
theorem mirrorIndices_nil (d : Dimension) (es : List Dimension) : mirrorIndices d es [] = [] := by
  cases es <;> rfl

theorem length_mirrorIndices (d : Dimension) (es : List Dimension) (is : List Expr) :
    (mirrorIndices d es is).length = is.length := by
  fun_induction mirrorIndices d es is with
  | case1 e es i is ih => rw [List.length_cons, ih, List.length_cons]
  | case2 => rfl

end Expr

def Reference.mirror (d : Dimension) (r : Reference) : Reference :=
  ⟨r.function, Expr.mirrorIndices d r.function.dimensions r.indices⟩

def Axis.mirror (d : Dimension) (a : Axis) : Axis :=
  { a with index := if a.dimension = d then Expr.mirrorIndex d a.index else a.index }

def Equation.mirror (d : Dimension) (eq : Equation) : Equation :=
  { eq with lhs := eq.lhs.mirror d, rhs := eq.rhs.mirror d }

/-- All indices along `d` are of the form `d + k`, and nothing else depends on `d`. -/
structure Reference.Mirrorable (d : Dimension) (r : Reference) : Prop where
  root : ∀ e ∈ r.function.dimensions, e.root = d → e = d
  shift : ∀ a ∈ r.axes, a.dimension = d → (a.index.shift? d).isSome = true
  free : ∀ a ∈ r.axes, a.dimension ≠ d → d.name ∉ a.index.symbols
  rest : ∀ e ∈ r.indices.drop r.function.dimensions.length, d.name ∉ e.symbols

instance (d : Dimension) (r : Reference) : Decidable (r.Mirrorable d) :=
  decidable_of_iff
    ((∀ e ∈ r.function.dimensions, e.root = d → e = d) ∧
      (∀ a ∈ r.axes, a.dimension = d → (a.index.shift? d).isSome = true) ∧
      (∀ a ∈ r.axes, a.dimension ≠ d → d.name ∉ a.index.symbols) ∧
      ∀ e ∈ r.indices.drop r.function.dimensions.length, d.name ∉ e.symbols)
    ⟨fun ⟨hroot, hshift, hfree, hrest⟩ => ⟨hroot, hshift, hfree, hrest⟩,
      fun h => ⟨h.root, h.shift, h.free, h.rest⟩⟩

namespace Expr

inductive Fit (d : Dimension) : List Dimension → List Expr → Prop where
  | along {es is i k} (h : i.shift? d = some k) (tail : Fit d es is) : Fit d (d :: es) (i :: is)
  | free {e es i is} (hne : e ≠ d) (h : d.name ∉ i.symbols) (tail : Fit d es is) :
    Fit d (e :: es) (i :: is)
  | missing (es) : Fit d es []
  | rest {is} (h : ∀ i ∈ is, d.name ∉ i.symbols) : Fit d [] is

theorem fit_of_zip {d : Dimension} {es : List Dimension} {is : List Expr}
    (hshift : ∀ p ∈ es.zip is, p.1 = d → (p.2.shift? d).isSome = true)
    (hfree : ∀ p ∈ es.zip is, p.1 ≠ d → d.name ∉ p.2.symbols)
    (hrest : ∀ i ∈ is.drop es.length, d.name ∉ i.symbols) : Fit d es is := by
  induction es generalizing is with
  | nil => exact .rest hrest
  | cons e es ih =>
    cases is with
    | nil => exact .missing _
    | cons i is =>
      rw [List.zip_cons_cons, List.forall_mem_cons] at hshift hfree
      have htail := ih hshift.2 hfree.2 hrest
      by_cases he : e = d
      · obtain ⟨k, hk⟩ := Option.isSome_iff_exists.1 (hshift.1 he)
        rw [he]
        exact .along hk htail
      · exact .free he (hfree.1 he) htail

end Expr

theorem Reference.Mirrorable.fit {d : Dimension} {r : Reference} (h : r.Mirrorable d) :
    Expr.Fit d r.function.dimensions r.indices := by
  have haxis {p : Dimension × Expr} (hp : p ∈ r.function.dimensions.zip r.indices) :
      (⟨r.function, p.1, p.2⟩ : Axis) ∈ r.axes := List.mem_map_of_mem hp
  apply Expr.fit_of_zip
  · intro p hp
    exact h.shift _ (haxis hp)
  · intro p hp
    exact h.free _ (haxis hp)
  · exact h.rest

namespace Expr

variable {d : Dimension} {es : List Dimension} {is : List Expr}

theorem Fit.mirrorIndices_eq_self (h : Fit d es is) (hfree : d.name ∉ symbolsOfList is) :
    mirrorIndices d es is = is := by
  induction h with
  | along hk _ _ =>
    rw [symbolsOfList, List.mem_append, not_or] at hfree
    exact absurd (mem_symbols_of_shift? hk) hfree.1
  | free hne _ _ ih =>
    rw [symbolsOfList, List.mem_append, not_or] at hfree
    rw [mirrorIndices, if_neg hne, ih hfree.2]
  | missing es => rw [mirrorIndices_nil]
  | rest => rfl

theorem mirror_eq_self {i : Expr} {r : Reference} (hi : d.name ∉ i.symbols) (hmem : r ∈ i.references)
    (hr : r.Mirrorable d) : r.mirror d = r := by
  have hindices : d.name ∉ symbolsOfList r.indices := fun h =>
    hi (mem_symbols.2 (.inr ⟨r, hmem, h⟩))
  unfold Reference.mirror
  rw [hr.fit.mirrorIndices_eq_self hindices]

theorem Fit.referencesOfList_mirrorIndices (h : Fit d es is)
    (hr : ∀ r ∈ referencesOfList is, r.Mirrorable d) :
    referencesOfList (mirrorIndices d es is) = (referencesOfList is).map (Reference.mirror d) := by
  induction h with
  | along hk _ ih =>
    rw [referencesOfList, references_of_shift? hk, List.nil_append] at hr ⊢
    rw [mirrorIndices, if_pos rfl, referencesOfList,
      references_of_shift? (shift?_mirrorIndex hk), List.nil_append, ih hr]
  | @free _ _ i _ hne hi _ ih =>
    rw [referencesOfList, List.forall_mem_append] at hr
    have hhead : ∀ r ∈ i.references, r.mirror d = id r := fun r hmem =>
      mirror_eq_self hi hmem (hr.1 r hmem)
    rw [mirrorIndices, if_neg hne, referencesOfList, referencesOfList, List.map_append, ih hr.2,
      List.map_congr_left hhead, List.map_id]
  | missing es => rw [mirrorIndices_nil, referencesOfList, List.map_nil]
  | @rest is hi =>
    have hself : ∀ r ∈ referencesOfList is, r.mirror d = id r := by
      intro r hmem
      obtain ⟨i, himem, hri⟩ := mem_referencesOfList.1 hmem
      exact mirror_eq_self (hi i himem) hri (hr r hmem)
    rw [List.map_congr_left hself, List.map_id]
    rfl

theorem perm_referencesOfList {es es' : List Expr} (h : es.Perm es') :
    (referencesOfList es).Perm (referencesOfList es') := by
  rw [referencesOfList_eq_flatMap, referencesOfList_eq_flatMap]
  exact h.flatMap_right _

theorem perm_references_mirror (e : Expr) (h : ∀ r ∈ e.references, r.Mirrorable d) :
    (e.mirror d).references.Perm (e.references.map (Reference.mirror d)) := by
  have hlist {es : List Expr} (ih : ∀ e ∈ es, (∀ r ∈ e.references, r.Mirrorable d) →
      (e.mirror d).references.Perm (e.references.map (Reference.mirror d)))
      (h : ∀ r ∈ referencesOfList es, r.Mirrorable d) :
      (referencesOfList (mirrorList d es)).Perm
        ((referencesOfList es).map (Reference.mirror d)) := by
    induction es with
    | nil => exact .nil
    | cons e es ihs =>
      rw [List.forall_mem_cons] at ih
      rw [referencesOfList, List.forall_mem_append] at h
      rw [mirrorList, referencesOfList, referencesOfList, List.map_append]
      exact (ih.1 h.1).append (ihs ih.2 h.2)
  induction e with
  | num q => exact .nil
  | sym s => exact .nil
  | access f is _ _ =>
    rw [references, List.forall_mem_cons] at h
    rw [mirror, references, references, List.map_cons,
      h.1.fit.referencesOfList_mirrorIndices h.2]
    exact .refl _
  | add ts ih => exact (perm_referencesOfList (sort_perm _)).trans (hlist ih h)
  | mul fs ih => exact (perm_referencesOfList (sort_perm _)).trans (hlist ih h)
  | pow b n ih => exact ih h
  | call s as ih => exact hlist ih h

theorem toReference?_mirror (d : Dimension) (e : Expr) :
    (e.mirror d).toReference? = e.toReference?.map (Reference.mirror d) := by
  cases e <;> rfl

end Expr

namespace Axis

variable {d : Dimension}

theorem axes_mirror (d : Dimension) (r : Reference) :
    (r.mirror d).axes = r.axes.map (Axis.mirror d) := by
  have hzip (es : List Dimension) (is : List Expr) :
      es.zip (Expr.mirrorIndices d es is) =
        (es.zip is).map fun p => (p.1, if p.1 = d then Expr.mirrorIndex d p.2 else p.2) := by
    induction es generalizing is with
    | nil => rfl
    | cons e es ih =>
      cases is with
      | nil => rfl
      | cons i is => rw [Expr.mirrorIndices, List.zip_cons_cons, ih]; rfl
  unfold Reference.axes
  rw [Reference.mirror, hzip, List.map_map, List.map_map]
  rfl

end Axis

namespace Equation

variable {d : Dimension} {eq : Equation}

theorem write?_mirror (d : Dimension) (eq : Equation) :
    (eq.mirror d).write? = eq.write?.map (Reference.mirror d) := Expr.toReference?_mirror d eq.lhs

theorem perm_reads_mirror (h : ∀ r ∈ eq.references, r.Mirrorable d) :
    (eq.mirror d).reads.Perm (eq.reads.map (Reference.mirror d)) := by
  unfold references reads at h
  rw [List.forall_mem_append, List.forall_mem_append] at h
  unfold reads
  rw [write?_mirror, List.map_append]
  apply (Expr.perm_references_mirror eq.rhs h.2.1).append
  cases hw : eq.write? with
  | none => exact .nil
  | some w =>
    rw [hw] at h
    have hfit := (h.1 w (by simp)).fit
    exact .of_eq (hfit.referencesOfList_mirrorIndices h.2.2)

theorem perm_references_mirror (h : ∀ r ∈ eq.references, r.Mirrorable d) :
    (eq.mirror d).references.Perm (eq.references.map (Reference.mirror d)) := by
  unfold references
  rw [write?_mirror, List.map_append, ← Option.toList_map]
  exact (perm_reads_mirror h).append_left _

theorem perm_axes_mirror (h : ∀ r ∈ eq.references, r.Mirrorable d) :
    (eq.mirror d).axes.Perm (eq.axes.map (Axis.mirror d)) := by
  have hperm := (perm_references_mirror h).flatMap_right Reference.axes
  rw [List.flatMap_map, funext (Axis.axes_mirror d), ← List.map_flatMap] at hperm
  exact hperm

end Equation

end Stencil
