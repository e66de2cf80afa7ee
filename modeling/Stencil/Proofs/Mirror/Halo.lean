import Stencil.Proofs.Halo.Amounts
import Stencil.Proofs.Halo.Local
import Stencil.Proofs.Mirror.Classify
import Stencil.Proofs.Mirror.Space

/-!
This module contains the halo scheme of reflected equations. The halos along `d` change sides, all
other halos are the same, and the last index along `d` is reflected.
-/

namespace Stencil

structure Reflected (d : Dimension) (space space' : IterationSpace) (data data' : DataSpace)
    (scope scope' : Scope) : Prop where
  root : d.root = d
  flipped : space.Flipped d space'
  slots : ∀ e modulo origin, (∃ s ∈ space'.slotsOf e, s.Serves modulo origin) ↔
    ∃ s ∈ space.slotsOf e, s.Serves modulo origin
  bounds : ∀ f, data'.bounds? f d = (data.bounds? f d).map (Bounds.reflect
    (Word.toSigned (f.offsetAlong d).value.1 + Word.toSigned (f.offsetAlong d).value.2))
  bounds_of_ne : ∀ f e, e ≠ d → data'.bounds? f e = data.bounds? f e
  scope : scope.Mirrors d scope'

namespace Expr

theorem shifted_injective {d : Dimension} {k l : Int} (h : shifted d k = shifted d l) : k = l := by
  have hshift := congrArg (shift? d) h
  rw [shift?_shifted, shift?_shifted] at hshift
  exact Option.some.inj hshift

theorem value_simplify_shifted (d : Dimension) (k : Int) :
    (shifted d k).simplify.value = shifted d k := by
  obtain ⟨form, hform, hconstant, hcoeff⟩ := shift?_eq_some_iff.1 (shift?_shifted d k)
  have hsymbol : form = ⟨k, (Affine.ofSymbol d.name).terms⟩ := by
    apply Affine.ext_coeff (Affine.reduced_ofExpr _ hform)
    · exact Affine.reduced_ofSymbol d.name
    · exact hconstant
    · intro s
      rw [hcoeff]
      exact (Affine.coeff_ofSymbol d.name s).symm
  have hterms : (Affine.ofSymbol d.name).terms.entries.map Affine.termToExpr = [ofDimension d] := rfl
  have htoExpr : (Affine.toExpr ⟨k, (Affine.ofSymbol d.name).terms⟩).value = shifted d k := by
    unfold Affine.toExpr
    dsimp only
    rw [hterms]
    by_cases hk : k = 0
    · rw [hk, shifted_zero]
      rfl
    · rw [if_pos (.inl (Int.cast_ne_zero.2 hk))]
      rfl
  unfold simplify
  rw [Checked.value_bind, hform, hsymbol]
  exact htoExpr

end Expr

namespace Halo

theorem value_lastIndex (space : IterationSpace) (isCarried : Bool) (b : Bounds) (e : Dimension) :
    (lastIndex space isCarried b e).value =
      match space.direction e with
      | .forward => b.upper - if isCarried then 1 else 0
      | .backward => b.lower + if isCarried then 1 else 0 := by
  unfold lastIndex
  cases space.direction e <;> rfl

theorem value_localIndex {space : IterationSpace} {f : GridFunction} {e : Dimension}
    (he : e.isStepping = false) (last : Int) :
    (localIndex space f e last).run.value = .ok (Expr.shifted e.root last) := by
  have hplus : (liftM (Expr.plus (.ofDimension e.root) (.ofInt last)) :
      HaloAnalysis Expr).run.value = .ok (Expr.shifted e.root last) := rfl
  unfold localIndex
  rw [if_neg (by simp [he]), Analysis.value_bind_of_ok hplus, Analysis.value_lift,
    Expr.value_simplify_shifted]

theorem exists_localIndex {space : IterationSpace} {f : GridFunction} {e : Dimension}
    (he : e.isStepping = true) (last : Int) :
    (∃ i, (localIndex space f e last).run.value = .ok i) ↔
      ∃ s ∈ space.slotsOf e, s.Serves (f.timeSize.getD 0) (Expr.shifted e last) := by
  have hplus : (liftM (Expr.plus (.ofDimension e) (.ofInt last)) :
      HaloAnalysis Expr).run.value = .ok (Expr.shifted e last) := rfl
  have hfind : (liftM (findSlot (f.timeSize.getD 0) (Expr.shifted e last) (space.slotsOf e)) :
      HaloAnalysis (Option Slot)).run.value =
      .ok (findSlot (f.timeSize.getD 0) (Expr.shifted e last) (space.slotsOf e)).value := rfl
  unfold localIndex
  rw [if_pos he, Analysis.value_bind_of_ok hplus]
  dsimp only
  rw [Analysis.value_bind_of_ok hfind, ← Slot.isSome_findSlot]
  cases (findSlot (f.timeSize.getD 0) (Expr.shifted e last) (space.slotsOf e)).value with
  | none =>
    constructor
    · rintro ⟨i, hi⟩
      cases hi
    · intro hsome
      cases hsome
  | some slot => exact ⟨fun _ => rfl, fun _ => ⟨_, rfl⟩⟩

section Reflected

variable {d : Dimension} {space space' : IterationSpace} {data data' : DataSpace}
variable {scope scope' : Scope} (h : Reflected d space space' data data' scope scope')
variable {f : GridFunction} {e : Dimension}

include h

theorem check_of_reflected (hcheck : check scope = .ok ()) : check scope' = .ok () := by
  rw [check_eq_ok] at hcheck ⊢
  intro dep' hdep'
  obtain ⟨dep, hdep, rfl⟩ := List.mem_map.1 (h.scope.dependences.subset hdep')
  exact hcheck dep hdep

theorem any_isCarriedBy_of_reflected :
    (Dependence.project f scope'.dependences).any (·.isCarriedBy e) =
      (Dependence.project f scope.dependences).any (·.isCarriedBy e) := by
  unfold Dependence.project
  rw [List.any_filter, List.any_filter, h.scope.dependences.any_eq, List.any_map]
  rfl

theorem lastAlong_of_reflected (b : Bounds) (c : Int) :
    lastAlong space' scope' f d (b.reflect c) = c - lastAlong space scope f d b := by
  unfold lastAlong Bounds.reflect
  rw [value_lastIndex, value_lastIndex, any_isCarriedBy_of_reflected h, h.flipped, if_pos h.root]
  generalize (if (Dependence.project f scope.dependences).any (·.isCarriedBy d) = true then (1 : Int)
    else 0) = step
  cases space.direction d with
  | forward =>
    show c - b.upper + step = c - (b.upper - step)
    omega
  | backward =>
    show c - b.lower - step = c - (b.lower + step)
    omega

theorem lastAlong_of_reflected_of_ne (he : e.root ≠ d) (b : Bounds) :
    lastAlong space' scope' f e b = lastAlong space scope f e b := by
  unfold lastAlong
  rw [value_lastIndex, value_lastIndex, any_isCarriedBy_of_reflected h, h.flipped, if_neg he]

theorem indexAlong_of_reflected {i : Expr} (hi : IndexAlong space data scope f d i) :
    ∃ b, data.bounds? f d = some b ∧ i = Expr.shifted d (lastAlong space scope f d b) ∧
      IndexAlong space' data' scope' f d (Expr.shifted d
        (Word.toSigned (f.offsetAlong d).value.1 + Word.toSigned (f.offsetAlong d).value.2 -
          lastAlong space scope f d b)) := by
  have hstepping : d.isStepping = false := by
    rw [← h.root]
    exact d.isStepping_root
  obtain ⟨b, hb, hi⟩ := hi
  rw [value_localIndex hstepping, h.root] at hi
  rw [h.root] at hb
  refine ⟨b, hb, (Except.ok.inj hi).symm, b.reflect
    (Word.toSigned (f.offsetAlong d).value.1 + Word.toSigned (f.offsetAlong d).value.2), ?_, ?_⟩
  · rw [h.root, h.bounds, hb]
    rfl
  · rw [value_localIndex hstepping, h.root, lastAlong_of_reflected h]

theorem exists_indexAlong_of_reflected (he : e.root = d → e = d)
    (hi : ∃ i, IndexAlong space data scope f e i) :
    ∃ i, IndexAlong space' data' scope' f e i := by
  by_cases hroot : e.root = d
  · obtain rfl := he hroot
    obtain ⟨i, hi⟩ := hi
    obtain ⟨b, -, -, hi'⟩ := indexAlong_of_reflected h hi
    exact ⟨_, hi'⟩
  · obtain ⟨i, b, hb, hi⟩ := hi
    have hlocal : ∃ i, (localIndex space' f e (lastAlong space' scope' f e b)).run.value = .ok i := by
      rw [lastAlong_of_reflected_of_ne h hroot]
      by_cases hstepping : e.isStepping = true
      · rw [exists_localIndex hstepping, h.slots, ← exists_localIndex hstepping]
        exact ⟨i, hi⟩
      · rw [Bool.not_eq_true] at hstepping
        exact ⟨_, value_localIndex hstepping _⟩
    obtain ⟨i', hi'⟩ := hlocal
    exact ⟨i', b, by rw [h.bounds_of_ne f e.root hroot, hb], hi'⟩

theorem isSome_bounds?_of_reflected (f : GridFunction) (e : Dimension) :
    (data'.bounds? f e).isSome = (data.bounds? f e).isSome := by
  by_cases he : e = d
  · rw [he, h.bounds, Option.isSome_map]
  · rw [h.bounds_of_ne f e he]

theorem value_reach_of_reflected_of_ne (he : e.root ≠ d) :
    (reach (some data') f e).value = (reach (some data) f e).value := by
  unfold reach
  rw [Option.bind_some, Option.bind_some, h.bounds_of_ne f e.root he]

theorem value_reach_of_reflected :
    (reach (some data') f d).value = (reach (some data) f d).value.swap ∨
      (reach (some data') f d).value = (reach (some data) f d).value := by
  unfold reach
  rw [Option.bind_some, Option.bind_some, h.root, h.bounds]
  cases data.bounds? f d with
  | none => exact .inr rfl
  | some b =>
    left
    rw [Option.map_some]
    simp only [Checked.value_bind, Checked.value_pure, Word.sub, Word.signed, Checked.value_guarded,
      Bounds.reflect, Prod.swap_prod_mk, Prod.mk.injEq]
    constructor
    · omega
    · omega

theorem ofWidths_of_reflected_eq_nil (he : e.root = d → e = d) :
    ofWidths e (reach (some data') f e).value.1 (reach (some data') f e).value.2 = [] ↔
      ofWidths e (reach (some data) f e).value.1 (reach (some data) f e).value.2 = [] := by
  by_cases hroot : e.root = d
  · obtain rfl := he hroot
    rw [ofWidths_eq_nil_iff, ofWidths_eq_nil_iff]
    rcases value_reach_of_reflected h (f := f) with hreach | hreach
    · rw [hreach, Prod.fst_swap, Prod.snd_swap, and_comm]
    · rw [hreach]
  · rw [value_reach_of_reflected_of_ne h hroot]

theorem filter_ofWidths_of_reflected (he : e.root = d → e = d) :
    (ofWidths e (reach (some data') f e).value.1 (reach (some data') f e).value.2).filter
        (·.dimension ≠ d) =
      (ofWidths e (reach (some data) f e).value.1 (reach (some data) f e).value.2).filter
        (·.dimension ≠ d) := by
  by_cases hroot : e.root = d
  · obtain rfl := he hroot
    have hnil (left right : Int) : (ofWidths e left right).filter (·.dimension ≠ e) = [] := by
      rw [List.filter_eq_nil_iff]
      intro halo hhalo
      simp [dimension_of_mem_ofWidths hhalo]
    rw [hnil, hnil]
  · rw [value_reach_of_reflected_of_ne h hroot]

end Reflected

end Halo

namespace HaloScheme

section Reflected

variable {d : Dimension} {space space' : IterationSpace} {data data' : DataSpace}
variable {scope scope' : Scope} (h : Reflected d space space' data data' scope scope')
variable {f : GridFunction} {labels : OrdMap Dimension HaloLabel}
variable (hlabels : ∀ e l, labels.find? e = some l → e.root = d → e = d)

include h hlabels

theorem labelledHalos_of_reflected_eq_nil :
    labelledHalos data' f labels = [] ↔ labelledHalos data f labels = [] := by
  unfold labelledHalos
  rw [List.append_eq_nil_iff, List.append_eq_nil_iff, Halo.value_along (some data'),
    Halo.value_along (some data), List.flatMap_eq_nil_iff, List.flatMap_eq_nil_iff]
  apply and_congr_left'
  apply forall₂_congr
  intro e he
  exact Halo.ofWidths_of_reflected_eq_nil h (hlabels e _ (mem_labelled.1 he))

theorem filter_labelledHalos_of_reflected :
    (labelledHalos data' f labels).filter (·.dimension ≠ d) =
      (labelledHalos data f labels).filter (·.dimension ≠ d) := by
  unfold labelledHalos
  rw [List.filter_append, List.filter_append, Halo.value_along (some data'),
    Halo.value_along (some data), List.filter_flatMap, List.filter_flatMap]
  congr 1
  apply List.flatMap_congr
  intro e he
  exact Halo.filter_ofWidths_of_reflected h (hlabels e _ (mem_labelled.1 he))

theorem exists_entry_of_reflected {o : Option HaloEntry}
    (ho : (exchange? space data scope f labels).run.value = .ok o) :
    ∃ o', (exchange? space' data' scope' f labels).run.value = .ok o' := by
  rcases exchange?_eq_ok_iff.1 ho with ⟨hnil, -⟩ | ⟨hne, m, hm, -⟩
  · rw [← labelledHalos_of_reflected_eq_nil h hlabels] at hnil
    exact ⟨none, exchange?_eq_ok_iff.2 (.inl ⟨hnil, rfl⟩)⟩
  · have hlocal : ∃ m', (Halo.localIndices f (localDimensions labels) space' data' scope').run.value
        = .ok m' := by
      rw [Halo.exists_localIndices]
      intro e he hsome
      rw [Halo.isSome_bounds?_of_reflected h] at hsome
      apply Halo.exists_indexAlong_of_reflected h
      · exact hlabels e _ (mem_labelled.1 (List.mem_of_mem_filter he))
      · exact Halo.exists_localIndices.1 ⟨m, hm⟩ e he hsome
    obtain ⟨m', hm'⟩ := hlocal
    rw [Ne, ← labelledHalos_of_reflected_eq_nil h hlabels] at hne
    exact ⟨_, exchange?_eq_ok_iff.2 (.inr ⟨hne, m', hm', rfl⟩)⟩

end Reflected

section Schemes

variable {d : Dimension} {space space' : IterationSpace} {data data' : DataSpace}
variable {scope scope' : Scope} {classification : Halo.Classification} {hs hs' : HaloScheme}
variable {eqs eqs' : List Equation}

theorem root_of_find?_labels (hbuilt : Built eqs space data hs scope classification)
    (hroots : ∀ eq ∈ eqs, ∀ r ∈ eq.references, r.Mirrorable d) {f : GridFunction}
    {labels : OrdMap Dimension HaloLabel} (hlabels : classification.find? f = some labels)
    (e : Dimension) (l : HaloLabel) (hl : labels.find? e = some l) (he : e.root = d) : e = d := by
  obtain ⟨eq, heq, r, hr, rfl, hdim⟩ := hbuilt.exists_reference hlabels hl
  exact (hroots eq heq r hr).root e hdim he

theorem exists_built_of_reflected (h : Reflected d space space' data data' scope scope')
    (hbuilt : Built eqs space data hs scope classification)
    (hrefs : ∀ eq ∈ eqs, ∀ r ∈ eq.references, r.Mirrorable d)
    (hscope' : (Scope.ofEquations (eqs'.map (·, space'))).run.value = .ok scope') :
    ∃ hs', (ofEquations eqs' space' data').run.value = .ok hs' ∧
      Built eqs' space' data' hs' scope' classification := by
  have hreads : ∀ f, ∀ a ∈ scope.reads.of f, a.Mirrorable d := by
    intro f a ha
    refine Scope.mirrorable_of_mem_reads ?_ hbuilt.scope_eq ha
    intro p hp
    obtain ⟨eq, heq, rfl⟩ := List.mem_map.1 hp
    exact hrefs eq heq
  have hclassify := Halo.value_classify_mirror h.scope.reads hreads
  rw [hbuilt.classify_eq] at hclassify
  have hentries : ∀ f labels, classification.find? f = some labels →
      ∃ o, (exchange? space' data' scope' f labels).run.value = .ok o := by
    intro f labels hlabels
    exact exists_entry_of_reflected h (root_of_find?_labels hbuilt hrefs hlabels)
      (hbuilt.entry_eq f labels hlabels)
  obtain ⟨hs', hok⟩ := exists_ofEquations hscope' (Halo.check_of_reflected h hbuilt.check_eq)
    hclassify hentries
  obtain ⟨scope'', classification', hbuilt'⟩ := exists_built hok
  -- The scope and the labels are determined by the equations.
  obtain rfl : scope' = scope'' := Except.ok.inj (hscope'.symm.trans hbuilt'.scope_eq)
  have hsame := Except.ok.inj (hclassify.symm.trans hbuilt'.classify_eq)
  obtain rfl : classification = classification' := (Prod.mk.inj hsame).1
  exact ⟨hs', hok, hbuilt'⟩

section Both

variable (h : Reflected d space space' data data' scope scope')
variable (hbuilt : Built eqs space data hs scope classification)
variable (hbuilt' : Built eqs' space' data' hs' scope' classification)
variable (hrefs : ∀ eq ∈ eqs, ∀ r ∈ eq.references, r.Mirrorable d)

include h hbuilt hbuilt' hrefs

theorem isSome_entries_of_reflected (f : GridFunction) :
    (hs'.entries.find? f).isSome = (hs.entries.find? f).isSome := by
  cases hlabels : classification.find? f with
  | none => rw [hbuilt.absent f hlabels, hbuilt'.absent f hlabels]
  | some labels =>
    have hsome := (exchange?_eq_ok (hbuilt.entry_eq f labels hlabels)).2
    have hsome' := (exchange?_eq_ok (hbuilt'.entry_eq f labels hlabels)).2
    have hnil := labelledHalos_of_reflected_eq_nil h (f := f)
      (root_of_find?_labels hbuilt hrefs hlabels)
    rw [Bool.eq_iff_iff, hsome, hsome', Ne, Ne, hnil]

theorem filter_halos_of_reflected (f : GridFunction) :
    (hs'.halos f).filter (·.dimension ≠ d) = (hs.halos f).filter (·.dimension ≠ d) := by
  cases hlabels : classification.find? f with
  | none =>
    unfold halos
    rw [hbuilt.absent f hlabels, hbuilt'.absent f hlabels]
  | some labels =>
    rw [(hbuilt.halos_eq hlabels).1, (hbuilt'.halos_eq hlabels).1]
    exact filter_labelledHalos_of_reflected h (root_of_find?_labels hbuilt hrefs hlabels)

theorem exists_localIndex_of_reflected {f : GridFunction} {entry : HaloEntry} {l : Int}
    (hentry : hs.entries.find? f = some entry)
    (hl : entry.localIndices.find? d = some (Expr.shifted d l)) :
    ∃ entry', hs'.entries.find? f = some entry' ∧ entry'.localIndices.find? d =
      some (Expr.shifted d (Word.toSigned (f.offsetAlong d).value.1 +
        Word.toSigned (f.offsetAlong d).value.2 - l)) := by
  have hsome := isSome_entries_of_reflected h hbuilt hbuilt' hrefs f
  rw [hentry] at hsome
  obtain ⟨entry', hentry'⟩ := Option.isSome_iff_exists.1 hsome
  refine ⟨entry', hentry', ?_⟩
  cases hlabels : classification.find? f with
  | none =>
    rw [hbuilt.absent f hlabels] at hentry
    cases hentry
  | some labels =>
    rw [Halo.localIndices_eq_ok (hbuilt.localIndices_eq hlabels hentry)] at hl
    rw [Halo.localIndices_eq_ok (hbuilt'.localIndices_eq hlabels hentry')]
    obtain ⟨b, -, hlast, hindex⟩ := Halo.indexAlong_of_reflected h hl.2
    rw [Expr.shifted_injective hlast]
    exact ⟨hl.1, hindex⟩

end Both

end Schemes

end HaloScheme

end Stencil
