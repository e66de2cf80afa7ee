import Stencil.Proofs.Affine.Exact
import Stencil.Proofs.Axes
import Stencil.Proofs.DataSpace
import Stencil.Proofs.Scope.Basic

/-!
This module contains the part of an array that a lowered equation touches. It is the least range
around all elements whose affine indices have the value of their dimension plus a constant. Indices
that have such a value without being affine are not seen.
-/

namespace Stencil

theorem Affine.denote_eq_shift_iff {a : Affine} {s : String} {k : Int} :
    (∀ ρ : String → Int, a.denote (fun t => (ρ t : Rat)) = ρ s + k) ↔
      a.constant = k ∧ ∀ t, a.coeff t = if s = t then 1 else 0 := by
  constructor
  · intro h
    have hconstant : a.constant = k := by
      have hzero := h fun _ => 0
      simpa only [Int.cast_zero, denote_zero, zero_add] using hzero
    refine ⟨hconstant, ?_⟩
    intro t
    have hunit := h fun u => if u = t then 1 else 0
    simp only [Int.cast_ite, Int.cast_one, Int.cast_zero, denote_unit, hconstant] at hunit
    rw [add_comm] at hunit
    exact add_right_cancel hunit
  · rintro ⟨hconstant, hcoeff⟩ ρ
    rw [denote_eq_sum _ a (S := insert s a.symbols.toFinset) (by simp +contextual), hconstant,
      Finset.sum_eq_single s]
    · rw [hcoeff, if_pos rfl]
      simp [add_comm]
    · intro t _ hne
      simp [hcoeff, Ne.symm hne]
    · simp

namespace Expr

/-- The value of an index is `d + k`, whatever the values of its scalars are. -/
def IsShift (d : Dimension) (k : Int) (e : Expr) : Prop :=
  ∀ (I : Interpretation Rat) (ρ : String → Int),
    e.denote I (fun s => (ρ s : Rat)) = ρ d.name + k

def IsAffine (e : Expr) : Prop := (Affine.ofExpr e).value.isSome = true

theorem shift?_eq_some_iff_isShift {d : Dimension} {k : Int} {e : Expr}
    (hfits : (Affine.ofExpr e).fits = true) :
    e.shift? d = some k ↔ e.IsAffine ∧ e.IsShift d k := by
  rw [shift?_eq_some_iff]
  unfold IsAffine IsShift
  cases hform : (Affine.ofExpr e).value with
  | none => simp
  | some form =>
    have hdenote (I : Interpretation Rat) (ρ : String → Int) :
        e.denote I (fun s => (ρ s : Rat)) = form.denote fun s => (ρ s : Rat) :=
      Affine.denote_ofExpr I _ e hfits hform
    simp only [hdenote, Affine.denote_eq_shift_iff]
    simp

end Expr

def FunctionDecl.marginAlong {ε : Type} (f : FunctionDecl ε) (d : Dimension) : Nat × Nat :=
  ((f.haloAlong d).1 + (widths f.padding (f.indexOf? d)).1,
    (f.haloAlong d).2 + (widths f.padding (f.indexOf? d)).2)

def FunctionDecl.HasWordMargins {ε : Type} (f : FunctionDecl ε) (root : Dimension) : Prop :=
  ∀ d ∈ f.dimensions, d.root = root →
    Word.isSigned (f.marginAlong d).1 = true ∧ Word.isSigned (f.marginAlong d).2 = true

instance {ε : Type} (f : FunctionDecl ε) (root : Dimension) :
    Decidable (f.HasWordMargins root) := by
  unfold FunctionDecl.HasWordMargins
  infer_instance

namespace Equation

/--
The dimensions over `root` along which an affine index of an element of `f` has the value of the
dimension plus a constant, each with this constant.
-/
def shifts (eq : Equation) (f : GridFunction) (root : Dimension) : Set (Dimension × Int) :=
  {t | t.1.root = root ∧ ∃ r, eq.Accesses r ∧ r.function = f ∧
    ∃ i : Nat, f.dimensions[i]? = some t.1 ∧ ∃ e, r.indices[i]? = some e ∧
      e.IsAffine ∧ e.IsShift t.1 t.2}

theorem fits_ofExpr_of_mem_axes {eq : Equation} (h : eq.dataSpace.fits = true) {a : Axis}
    (ha : a ∈ eq.axes) : (Affine.ofExpr a.index).fits = true := by
  obtain ⟨s, hs⟩ := Checked.exists_fits_of_foldlM h ha
  unfold Axis.touch Axis.offset? at hs
  simp only [Checked.fits_bind, Bool.and_eq_true] at hs
  exact hs.1.1

theorem setOf_range?_eq {eq : Equation} (h : eq.dataSpace.fits = true) {f : GridFunction}
    {root : Dimension} (hwords : f.HasWordMargins root) :
    {b | ∃ a ∈ eq.axes, a.function = f ∧ a.dimension.root = root ∧ a.range? = some b} =
      (fun t => ⟨(f.marginAlong t.1).1 + t.2, (f.marginAlong t.1).2 + t.2⟩) ''
        eq.shifts f root := by
  have hrange {a : Axis} (hf : a.function = f) (hroot : a.dimension.root = root)
      (hd : a.dimension ∈ f.dimensions) (b : Bounds) : a.range? = some b ↔
        ∃ k, a.index.shift? a.dimension = some k ∧
          ⟨(f.marginAlong a.dimension).1 + k, (f.marginAlong a.dimension).2 + k⟩ = b := by
    have hmargins : (f.offsetAlong a.dimension).value = f.marginAlong a.dimension := rfl
    unfold Axis.range?
    rw [hf, hmargins, Word.toSigned_of_isSigned (hwords _ hd hroot).1,
      Word.toSigned_of_isSigned (hwords _ hd hroot).2, Option.map_eq_some_iff]
  ext b
  simp only [Set.mem_ofPred_eq, Set.mem_image]
  constructor
  · rintro ⟨a, ha, hf, hroot, hb⟩
    obtain ⟨r, hr, hax⟩ := mem_axes_iff_accesses.1 ha
    obtain ⟨hfunction, i, hd, hindex⟩ := Reference.mem_axes.1 hax
    rw [← hfunction, hf] at hd
    obtain ⟨k, hk, rfl⟩ := (hrange hf hroot (List.mem_of_getElem? hd) b).1 hb
    have hshift := (Expr.shift?_eq_some_iff_isShift (fits_ofExpr_of_mem_axes h ha)).1 hk
    exact ⟨(a.dimension, k),
      ⟨hroot, r, hr, hfunction.symm.trans hf, i, hd, a.index, hindex, hshift⟩, rfl⟩
  · rintro ⟨⟨d, k⟩, ⟨hroot, r, hr, rfl, i, hd, e, he, hshift⟩, rfl⟩
    have hax : ⟨r.function, d, e⟩ ∈ r.axes := Reference.mem_axes.2 ⟨rfl, i, hd, he⟩
    have ha := mem_axes_iff_accesses.2 ⟨r, hr, hax⟩
    refine ⟨_, ha, rfl, hroot, ?_⟩
    rw [hrange rfl hroot (List.mem_of_getElem? hd)]
    exact ⟨k, (Expr.shift?_eq_some_iff_isShift (fits_ofExpr_of_mem_axes h ha)).2 hshift, rfl⟩

theorem fits_dataSpace_of_mem_lowerAll {eqs : List Equation}
    {directions : OrdMap Dimension Direction} (hfits : (lowerAll eqs directions).fits = true)
    {l : LoweredEquation} (hl : l ∈ (lowerAll eqs directions).value) :
    l.equation.dataSpace.fits = true := by
  unfold lowerAll at hfits
  rw [Checked.fits_bind, Bool.and_eq_true, Checked.fits_mapM] at hfits
  rw [value_lowerAll, List.mem_map] at hl
  obtain ⟨eq, heq, rfl⟩ := hl
  have hlower := hfits.2 eq heq
  unfold lower at hlower
  rw [Checked.fits_bind, Bool.and_eq_true] at hlower
  exact hlower.1

/--
The data space of a lowered equation is exact. A part of an array is touched along a loop if and
only if an affine index along a dimension over this loop has the value of the dimension plus a
constant, and it reaches from the least to the greatest such constant, counted from the beginning of
the allocation. All elements count: those that are written, those that are read, and those in index
functions.
-/
theorem dataSpace_exact (eqs : List Equation) (directions : OrdMap Dimension Direction)
    (lowered : List LoweredEquation) (h : lowerAll eqs directions = pure lowered) :
    lowered.map (·.equation) = eqs ∧
      ∀ l ∈ lowered, ∀ (f : GridFunction) (root : Dimension), f.HasWordMargins root →
        ((l.dataSpace.bounds? f root).isSome = true ↔ (l.equation.shifts f root).Nonempty) ∧
        ∀ b, l.dataSpace.bounds? f root = some b →
          IsLeast ((fun t => ((f.marginAlong t.1).1 + t.2 : Int)) '' l.equation.shifts f root)
            b.lower ∧
          IsGreatest ((fun t => ((f.marginAlong t.1).2 + t.2 : Int)) '' l.equation.shifts f root)
            b.upper := by
  obtain ⟨hfits, rfl⟩ := Checked.eq_pure_iff.1 h
  constructor
  · exact map_equation_lowerAll eqs directions
  · intro l hl f root hwords
    have hspace := dataSpace_of_mem_lowerAll hl
    have hfits := fits_dataSpace_of_mem_lowerAll hfits hl
    have hhull := isHull_dataSpace l.equation f root
    rw [setOf_range?_eq hfits hwords, ← hspace] at hhull
    cases hbounds : l.dataSpace.bounds? f root with
    | none =>
      rw [hbounds] at hhull
      have hempty : l.equation.shifts f root = ∅ := Set.image_eq_empty.1 hhull
      simp [hempty]
    | some b =>
      rw [hbounds] at hhull
      obtain ⟨hleast, hgreatest⟩ := hhull
      rw [Set.image_image] at hleast hgreatest
      refine ⟨iff_of_true rfl ?_, ?_⟩
      · exact Set.image_nonempty.1 ⟨_, hleast.1⟩
      · intro b' hb'
        obtain rfl := Option.some.inj hb'
        exact ⟨hleast, hgreatest⟩

section Gathering

def gathered : GridFunction :=
  { FunctionDecl.declare "u" .dense [.space "x"] [.num 8] with
    halo := [(3, 3)]
    padding := [(1, 0)] }

/-- `u[x + 1] = u[x - 1] + v[u[x + 2]]`. -/
def gathering : Equation :=
  ⟨.access gathered [.add [.num 1, .sym "x"]],
    .add [.access gathered [.add [.num (-1), .sym "x"]],
      .access (.declare "v" .dense [.plain "p"] [.num 8])
        [.access gathered [.add [.num 2, .sym "x"]]]], false⟩

theorem dataSpace_exact_gathering :
    ∃ l, lowerAll [gathering] .empty = pure [l] ∧ l.equation = gathering ∧
      gathered.HasWordMargins (.space "x") ∧
      IsLeast ((fun t => ((gathered.marginAlong t.1).1 + t.2 : Int)) ''
        gathering.shifts gathered (.space "x")) 3 ∧
      IsGreatest ((fun t => ((gathered.marginAlong t.1).2 + t.2 : Int)) ''
        gathering.shifts gathered (.space "x")) 5 := by
  have hwords : gathered.HasWordMargins (.space "x") := by decide
  have hfits : (lowerAll [gathering] .empty).fits = true := by decide +kernel
  have hlowered : lowerAll [gathering] .empty =
      pure [(lower (Slot.collect [gathering]).value .empty gathering).value] := by
    rw [Checked.eq_pure_iff]
    exact ⟨hfits, value_lowerAll ..⟩
  have hbounds : (lower (Slot.collect [gathering]).value .empty gathering).value.dataSpace.bounds?
      gathered (.space "x") = some ⟨3, 5⟩ := by
    decide +kernel
  refine ⟨_, hlowered, rfl, hwords, ?_⟩
  exact ((dataSpace_exact _ _ _ hlowered).2 _ (List.mem_singleton_self _) gathered (.space "x")
    hwords).2 _ hbounds

end Gathering

section Disguised

def disguisedIndex : Expr :=
  .add [.sym "x", .mul [.num (-1), .sym "x", .sym "x"], .mul [.sym "x", .sym "x"]]

def disguisedField : GridFunction := .declare "u" .dense [.space "x"] [.num 8]

/-- `v[x] = u[x - x * x + x * x]`. -/
def disguised : Equation :=
  ⟨.access (.declare "v" .dense [.space "x"] [.num 8]) [.sym "x"],
    .access disguisedField [disguisedIndex], false⟩

/-- The index has the value of its dimension, but it has no affine form, so nothing is recorded. -/
theorem dataSpace_disguised :
    disguised.Accesses ⟨disguisedField, [disguisedIndex]⟩ ∧
      disguisedIndex.IsShift (.space "x") 0 ∧
      disguisedField.HasWordMargins (.space "x") ∧
      ∃ l, lowerAll [disguised] .empty = pure [l] ∧ l.equation = disguised ∧
        l.dataSpace.bounds? disguisedField (.space "x") = none := by
  have hfits : (lowerAll [disguised] .empty).fits = true := by decide +kernel
  refine ⟨.inr (.inl .self), ?_, by decide, ?_⟩
  · intro I ρ
    simp only [disguisedIndex, Expr.denote, Expr.denoteAll_eq_map, List.map_cons, List.map_nil,
      List.sum_cons, List.sum_nil, List.prod_cons, List.prod_nil, Dimension.name]
    push_cast
    ring
  · refine ⟨_, Checked.eq_pure_iff.2 ⟨hfits, value_lowerAll ..⟩, rfl, ?_⟩
    decide +kernel

end Disguised

end Equation

end Stencil
