import Stencil.Proofs.Axes
import Stencil.Proofs.DataSpace
import Stencil.Proofs.Halo.Classify

/-!
This module contains how much is exchanged of an array whose indices along the distributed
dimensions are shifted by constants: on each side as much as the farthest shift.
-/

namespace Stencil

def Reference.indexAlong? (r : Reference) (d : Dimension) : Option Expr :=
  (r.function.indexOf? d).bind fun i => r.indices[i]?

def Reference.shiftAlong? (r : Reference) (d : Dimension) : Option Int :=
  (r.indexAlong? d).bind (·.shift? d)

namespace Equation

def shiftsAlong (eqs : List Equation) (f : GridFunction) (d : Dimension) : Set Int :=
  {k | ∃ eq ∈ eqs, ∃ r ∈ eq.references, r.function = f ∧ r.shiftAlong? d = some k}

/-- An equation reads `f`; an increment also reads what it writes. -/
def Reads (eq : Equation) (f : GridFunction) : Prop :=
  (∃ r ∈ eq.reads, r.function = f) ∨
    eq.isIncrement = true ∧ ∃ w, eq.write? = some w ∧ w.function = f

end Equation

theorem FunctionDecl.indexOf?_eq_some_iff {ε : Type} {f : FunctionDecl ε}
    (hnodup : f.dimensions.Nodup) {d : Dimension} {i : Nat} :
    f.indexOf? d = some i ↔ f.dimensions[i]? = some d := by
  unfold indexOf?
  rw [List.idxOf?_eq_some_iff, List.getElem?_eq_some_iff]
  constructor
  · rintro ⟨hi, heq, -⟩
    exact ⟨hi, heq⟩
  · rintro ⟨hi, heq⟩
    refine ⟨hi, heq, fun j hj hsame => ?_⟩
    have hij : j = i := hnodup.getElem_inj_iff.1 (hsame.trans heq.symm)
    omega

namespace Reference

theorem shiftAlong?_eq_some_iff {r : Reference} (hnodup : r.function.dimensions.Nodup)
    {d : Dimension} {k : Int} :
    r.shiftAlong? d = some k ↔ ∃ a ∈ r.axes, a.dimension = d ∧ a.index.shift? d = some k := by
  unfold shiftAlong? indexAlong?
  simp only [Option.bind_eq_some_iff, FunctionDecl.indexOf?_eq_some_iff hnodup, mem_axes]
  constructor
  · rintro ⟨e, ⟨i, hd, he⟩, hk⟩
    exact ⟨⟨r.function, d, e⟩, ⟨rfl, i, hd, he⟩, rfl, hk⟩
  · rintro ⟨a, ⟨-, i, hd, he⟩, rfl, hk⟩
    exact ⟨a.index, ⟨i, hd, he⟩, hk⟩

end Reference

namespace Halo

theorem value_label?_of_indexAlong? {r : Reference} {d : Dimension} {e : Expr}
    (he : r.indexAlong? d = some e) (hregular : (Access.isRegularIndex d e).value = true)
    (grid : Grid) (space : IterationSpace) (t : Nat) (isIncrement : Bool) (mode : AccessMode) :
    (label? grid (.ofReference space t isIncrement mode r) d).value =
      some (if grid.isDistributed d then .stencil else .none) := by
  obtain ⟨i, hi, he⟩ := Option.bind_eq_some_iff.1 he
  have haffine : ((TimedAccess.ofReference space t isIncrement mode r).access.isAffine d).value =
      true := by
    unfold Access.isAffine Access.isRegularAlong?
    have hi' : (TimedAccess.ofReference space t isIncrement mode r).access.function.indexOf? d =
      some i := hi
    have he' : (TimedAccess.ofReference space t isIncrement mode r).access.indices[i]? = some e :=
      he
    simp [hi', he', hregular]
  unfold label?
  rw [Checked.value_bind, haffine]
  rfl

theorem value_label?_of_shiftAlong? {r : Reference} {d : Dimension} {k : Int}
    (h : r.shiftAlong? d = some k) (grid : Grid) (space : IterationSpace) (t : Nat)
    (isIncrement : Bool) (mode : AccessMode) :
    (label? grid (.ofReference space t isIncrement mode r) d).value =
      some (if grid.isDistributed d then .stencil else .none) := by
  obtain ⟨e, he, hk⟩ := Option.bind_eq_some_iff.1 h
  exact value_label?_of_indexAlong? he (Access.value_isRegularIndex hk) ..

theorem isDistributed_of_label? {grid : Grid} {r : TimedAccess} {d : Dimension} {l : HaloLabel}
    (h : (label? grid r d).value = some l) (hl : l = .stencil ∨ l = .full) :
    grid.isDistributed d = true := by
  unfold label? at h
  simp only [Checked.value_bind] at h
  split at h
  · simp only [Checked.value_pure, Option.some.injEq] at h
    split at h
    · assumption
    · rcases hl with rfl | rfl <;> cases h
  · split at h
    · rcases hl with rfl | rfl <;> cases h
    · simp only [Checked.value_bind] at h
      split at h
      · simp only [Checked.value_pure] at h
        split at h
        · assumption
        · cases h
      · cases h

theorem mem_ofWidths {d : Dimension} {left right : Int} {h : Halo} :
    h ∈ ofWidths d left right ↔
      0 < left ∧ h = ⟨d, .left, left⟩ ∨ 0 < right ∧ h = ⟨d, .right, right⟩ := by
  unfold ofWidths
  by_cases hleft : 0 < left <;> by_cases hright : 0 < right <;> simp [hleft, hright]

theorem ofWidths_eq_nil_iff {d : Dimension} {left right : Int} :
    ofWidths d left right = [] ↔ left ≤ 0 ∧ right ≤ 0 := by
  unfold ofWidths
  rw [List.append_eq_nil_iff]
  simp

theorem left_mem_ofWidths {d : Dimension} {left right : Int} (h : 0 < left) :
    ⟨d, .left, left⟩ ∈ ofWidths d left right :=
  mem_ofWidths.2 (.inl ⟨h, rfl⟩)

theorem right_mem_ofWidths {d : Dimension} {left right : Int} (h : 0 < right) :
    ⟨d, .right, right⟩ ∈ ofWidths d left right :=
  mem_ofWidths.2 (.inr ⟨h, rfl⟩)

theorem dimension_of_mem_ofWidths {d : Dimension} {left right : Int} {h : Halo}
    (hmem : h ∈ ofWidths d left right) : h.dimension = d := by
  rcases mem_ofWidths.1 hmem with ⟨-, rfl⟩ | ⟨-, rfl⟩ <;> rfl

theorem filter_flatMap_ofWidths {ds : List Dimension} (hnodup : ds.Nodup) {d : Dimension}
    (hd : d ∈ ds) (widths : Dimension → Int × Int) :
    (ds.flatMap fun d => ofWidths d (widths d).1 (widths d).2).filter (·.dimension = d) =
      ofWidths d (widths d).1 (widths d).2 := by
  have hother (d' : Dimension) (hne : d' ≠ d) :
      (ofWidths d' (widths d').1 (widths d').2).filter (·.dimension = d) = [] := by
    rw [List.filter_eq_nil_iff]
    intro h hmem
    rw [dimension_of_mem_ofWidths hmem, decide_eq_true_eq]
    exact hne
  have hown : (ofWidths d (widths d).1 (widths d).2).filter (·.dimension = d) =
      ofWidths d (widths d).1 (widths d).2 := by
    rw [List.filter_eq_self]
    intro h hmem
    exact decide_eq_true (dimension_of_mem_ofWidths hmem)
  obtain ⟨before, after, rfl⟩ := List.append_of_mem hd
  have hbefore : ∀ d' ∈ before, d' ≠ d := by grind
  have hafter : ∀ d' ∈ after, d' ≠ d := by grind
  rw [List.filter_flatMap, List.flatMap_append, List.flatMap_cons, hown,
    List.flatMap_eq_nil_iff.2 fun d' hd' => hother d' (hbefore d' hd'),
    List.flatMap_eq_nil_iff.2 fun d' hd' => hother d' (hafter d' hd'), List.nil_append,
    List.append_nil]

end Halo

theorem Equation.isHull_jointData (eqs : List Equation) (f : GridFunction) (e : Dimension) :
    Bounds.IsHull {b | ∃ eq ∈ eqs, ∃ a ∈ eq.axes, a.function = f ∧ a.dimension.root = e ∧
        a.range? = some b} ((jointData eqs).bounds? f e) :=
  DataSpace.isHull_union (fun eq _ => eq.recorded_dataSpace.wellFormed) fun eq _ =>
    eq.isHull_dataSpace f e

theorem Equation.isHull_shiftsAlong {f : GridFunction}
    (hroots : (f.dimensions.map Dimension.root).Nodup) {d : Dimension} (hd : d ∈ f.dimensions)
    (eqs : List Equation) :
    Bounds.IsHull ((fun k => ⟨Word.toSigned (f.offsetAlong d).value.1 + k,
        Word.toSigned (f.offsetAlong d).value.2 + k⟩) '' shiftsAlong eqs f d)
      ((jointData eqs).bounds? f d.root) := by
  have hhull := isHull_jointData eqs f d.root
  convert hhull using 1
  ext b
  simp only [shiftsAlong, Set.mem_image, Set.mem_ofPred_eq, axes, List.mem_flatMap]
  have hnodup : f.dimensions.Nodup := .of_map _ hroots
  constructor
  · rintro ⟨k, ⟨eq, heq, r, hr, rfl, hk⟩, rfl⟩
    obtain ⟨a, ha, rfl, hk⟩ := (Reference.shiftAlong?_eq_some_iff hnodup).1 hk
    refine ⟨eq, heq, a, ⟨r, hr, ha⟩, (Reference.mem_axes.1 ha).1, rfl, ?_⟩
    unfold Axis.range?
    rw [hk, (Reference.mem_axes.1 ha).1]
    rfl
  · rintro ⟨eq, heq, a, ⟨r, hr, ha⟩, hf, hroot, hb⟩
    obtain ⟨hfunction, i, hdimension, -⟩ := Reference.mem_axes.1 ha
    obtain ⟨k, hk, rfl⟩ := Option.map_eq_some_iff.1 hb
    rw [hf] at hfunction
    subst hfunction
    -- Only the index along `d` itself is touched along the root of `d`.
    have hsame : a.dimension = d :=
      List.inj_on_of_nodup_map hroots (List.mem_of_getElem? hdimension) hd hroot
    subst hsame
    refine ⟨k, ⟨eq, heq, r, hr, rfl, (Reference.shiftAlong?_eq_some_iff hnodup).2
      ⟨a, ha, rfl, hk⟩⟩, ?_⟩
    rw [hf]

namespace HaloScheme

section Read

variable {eqs : List Equation} {space : IterationSpace} {scope : Scope} {f : GridFunction}
variable {grid : Grid} {d : Dimension}

theorem exists_mem_reads (h : (Scope.ofEquations (eqs.map (·, space))).run.value = .ok scope)
    {eq : Equation} (heq : eq ∈ eqs) {r : Reference}
    (hr : r ∈ eq.reads ∨ eq.isIncrement = true ∧ eq.write? = some r) :
    ∃ t, .ofReference space t eq.isIncrement .read r ∈ scope.reads.of r.function := by
  obtain ⟨t, ht⟩ := List.mem_iff_getElem?.1 (List.mem_map_of_mem heq)
  have hmem : r ∈ eq.reads ++ (if eq.isIncrement then eq.write?.toList else []) := by
    rcases hr with hr | ⟨hincrement, hw⟩
    · exact List.mem_append_left _ hr
    · exact List.mem_append_right _ (by simp [hincrement, hw])
  refine ⟨t, ?_⟩
  rw [(Scope.ofEquations_eq_ok h).1, AccessMap.of_ofList, List.mem_filter, List.mem_flatMap]
  exact ⟨⟨((eq, space), t), List.mem_zipIdx_iff_getElem?.2 ht, List.mem_map_of_mem hmem⟩,
    decide_eq_true rfl⟩

theorem reads_of_ne_nil (h : (Scope.ofEquations (eqs.map (·, space))).run.value = .ok scope)
    (hread : ∃ eq ∈ eqs, eq.Reads f) : scope.reads.of f ≠ [] := by
  obtain ⟨eq, heq, ⟨r, hr, rfl⟩ | ⟨hincrement, w, hw, rfl⟩⟩ := hread
  · obtain ⟨t, ht⟩ := exists_mem_reads h heq (.inl hr)
    exact List.ne_nil_of_mem ht
  · obtain ⟨t, ht⟩ := exists_mem_reads h heq (.inr ⟨hincrement, hw⟩)
    exact List.ne_nil_of_mem ht

theorem exists_reference_of_reads (hread : ∃ eq ∈ eqs, eq.Reads f) :
    ∃ eq ∈ eqs, ∃ r ∈ eq.references, r.function = f := by
  obtain ⟨eq, heq, ⟨r, hr, hf⟩ | ⟨-, w, hw, hf⟩⟩ := hread
  · exact ⟨eq, heq, r, List.mem_append_right _ hr, hf⟩
  · exact ⟨eq, heq, w, List.mem_append_left _ (by simp [hw]), hf⟩

theorem requests_eq_stencil (h : (Scope.ofEquations (eqs.map (·, space))).run.value = .ok scope)
    (hshift : ∀ eq ∈ eqs, ∀ r ∈ eq.references, r.function = f →
      (r.shiftAlong? d).isSome = true) (hdistributed : grid.isDistributed d = true) :
    ∀ l ∈ Halo.requests grid (scope.reads.of f) d, l = .stencil := by
  intro l hl
  obtain ⟨a, ha, -, hl⟩ := Halo.mem_requests.1 hl
  obtain ⟨e, he, r, hr, hf, heq⟩ := Scope.exists_read h ha
  obtain ⟨eq, hmem, rfl⟩ := List.mem_map.1 (List.mem_of_getElem? he)
  obtain ⟨k, hk⟩ := Option.isSome_iff_exists.1 (hshift eq hmem r hr hf)
  rw [heq, Halo.value_label?_of_shiftAlong? hk, if_pos hdistributed] at hl
  exact (Option.some.inj hl).symm

theorem exists_stencil_labels {data : DataSpace} {hs : HaloScheme}
    {classification : Halo.Classification}
    (hbuilt : Built eqs space data hs scope classification) (htensor : f.isTensor = true)
    (hgrid : f.grid = some grid) (hread : ∃ eq ∈ eqs, eq.Reads f)
    (hshift : ∀ d ∈ f.dimensions, grid.isDistributed d = true → ∀ eq ∈ eqs,
      ∀ r ∈ eq.references, r.function = f → (r.shiftAlong? d).isSome = true) :
    ∃ m, classification.find? f = some m ∧ labelled m .full = [] ∧
      ∀ d, d ∈ labelled m .stencil ↔ d ∈ f.dimensions ∧ grid.isDistributed d = true := by
  have hnonempty := reads_of_ne_nil hbuilt.scope_eq hread
  obtain ⟨m, hm, hlabel⟩ := Halo.exists_labels hbuilt.classify_eq htensor hgrid hnonempty
  -- A dimension with a request for an exchange is a distributed dimension of the array.
  have hasked {d : Dimension} {l : HaloLabel} (hl : l = .stencil ∨ l = .full)
      (hmem : l ∈ Halo.requests grid (scope.reads.of f) d) :
      d ∈ f.dimensions ∧ grid.isDistributed d = true := by
    obtain ⟨a, ha, hd, hal⟩ := Halo.mem_requests.1 hmem
    obtain ⟨e, -, r, -, rfl, heq⟩ := Scope.exists_read hbuilt.scope_eq ha
    rw [heq] at hd
    exact ⟨hd, Halo.isDistributed_of_label? hal hl⟩
  refine ⟨m, hm, ?_, ?_⟩
  · rw [List.eq_nil_iff_forall_not_mem]
    intro d hd
    rw [mem_labelled, hlabel] at hd
    obtain ⟨hdim, hdistributed⟩ := hasked (.inr rfl) hd.1
    cases requests_eq_stencil hbuilt.scope_eq (hshift d hdim hdistributed) hdistributed _ hd.1
  · intro d
    rw [mem_labelled, hlabel]
    constructor
    · intro hd
      exact hasked (.inl rfl) hd.1
    · rintro ⟨hdim, hdistributed⟩
      refine ⟨?_, requests_eq_stencil hbuilt.scope_eq (hshift d hdim hdistributed) hdistributed⟩
      obtain ⟨a, ha⟩ := List.exists_mem_of_ne_nil _ hnonempty
      obtain ⟨e, he, r, hr, rfl, heq⟩ := Scope.exists_read hbuilt.scope_eq ha
      obtain ⟨eq, heqs, rfl⟩ := List.mem_map.1 (List.mem_of_getElem? he)
      obtain ⟨k, hk⟩ := Option.isSome_iff_exists.1 (hshift d hdim hdistributed eq heqs r hr rfl)
      refine Halo.mem_requests.2 ⟨a, ha, ?_, ?_⟩
      · rw [heq]
        exact hdim
      · rw [heq, Halo.value_label?_of_shiftAlong? hk, if_pos hdistributed]

theorem exists_reach_eq (hroots : (f.dimensions.map Dimension.root).Nodup)
    (hd : d ∈ f.dimensions) (hne : (Equation.shiftsAlong eqs f d).Nonempty) :
    ∃ lo hi, IsLeast (Equation.shiftsAlong eqs f d) lo ∧
      IsGreatest (Equation.shiftsAlong eqs f d) hi ∧
      (Halo.reach (some (Equation.jointData eqs)) f d).value = (-lo, hi) := by
  have hhull := Equation.isHull_shiftsAlong hroots hd eqs
  unfold Halo.reach
  rw [Option.bind_some]
  cases hbounds : (Equation.jointData eqs).bounds? f d.root with
  | none =>
    rw [hbounds] at hhull
    exact absurd (Set.image_eq_empty.1 hhull) hne.ne_empty
  | some b =>
    rw [hbounds] at hhull
    obtain ⟨⟨⟨_, ⟨lo, hlo, rfl⟩, hlower⟩, hleast⟩, ⟨_, ⟨hi, hhi, rfl⟩, hupper⟩, hgreatest⟩ := hhull
    refine ⟨lo, hi, ⟨hlo, fun k hk => ?_⟩, ⟨hhi, fun k hk => ?_⟩, ?_⟩
    · have hle := hleast (Set.mem_image_of_mem _ (Set.mem_image_of_mem _ hk))
      rw [← hlower] at hle
      simpa using hle
    · have hle := hgreatest (Set.mem_image_of_mem _ (Set.mem_image_of_mem _ hk))
      rw [← hupper] at hle
      simpa using hle
    · simp only [Word.sub, Word.signed, Checked.value_bind, Checked.value_pure,
        Checked.value_guarded, ← hlower, ← hupper, Prod.mk.injEq]
      omega

end Read

section Exact

variable {eqs : List Equation} {directions : OrdMap Dimension Direction} {hs : HaloScheme}
variable {f : GridFunction} {grid : Grid}

theorem exists_halos_eq
    (h : (ofLowered (Equation.lowerAll eqs directions).value).run.value = .ok hs)
    (htensor : f.isTensor = true) (hgrid : f.grid = some grid)
    (hread : ∃ eq ∈ eqs, eq.Reads f) (hroots : (f.dimensions.map Dimension.root).Nodup)
    (hshift : ∀ d ∈ f.dimensions, grid.isDistributed d = true → ∀ eq ∈ eqs,
      ∀ r ∈ eq.references, r.function = f → (r.shiftAlong? d).isSome = true) :
    ∃ (ds : List Dimension) (lo hi : Dimension → Int), ds.Nodup ∧
      (∀ d, d ∈ ds ↔ d ∈ f.dimensions ∧ grid.isDistributed d = true) ∧
      (∀ d ∈ ds, IsLeast (Equation.shiftsAlong eqs f d) (lo d) ∧
        IsGreatest (Equation.shiftsAlong eqs f d) (hi d)) ∧
      hs.halos f = (ds.flatMap fun d => Halo.ofWidths d (-lo d) (hi d)) ∧
      ((hs.entries.find? f).isSome = true ↔ hs.halos f ≠ []) := by
  rw [Equation.ofLowered_lowerAll] at h
  obtain ⟨scope, classification, hbuilt⟩ := exists_built h
  obtain ⟨m, hm, hfull, hstencil⟩ := exists_stencil_labels hbuilt htensor hgrid hread hshift
  obtain ⟨hhalos, hsome⟩ := hbuilt.halos_eq hm
  rw [labelledHalos, hfull, Halo.value_along, Halo.value_along, List.flatMap_nil,
    List.append_nil] at hhalos
  have hreach : ∀ d ∈ labelled m .stencil, ∃ lo hi,
      IsLeast (Equation.shiftsAlong eqs f d) lo ∧ IsGreatest (Equation.shiftsAlong eqs f d) hi ∧
      (Halo.reach (some (Equation.jointData eqs)) f d).value = (-lo, hi) := by
    intro d hd
    obtain ⟨hdim, hdistributed⟩ := (hstencil d).1 hd
    apply exists_reach_eq hroots hdim
    obtain ⟨eq, heq, r, hr, hf⟩ := exists_reference_of_reads hread
    obtain ⟨k, hk⟩ := Option.isSome_iff_exists.1 (hshift d hdim hdistributed eq heq r hr hf)
    exact ⟨k, eq, heq, r, hr, hf, hk⟩
  choose! lo hi hleast hgreatest hwidths using hreach
  refine ⟨labelled m .stencil, lo, hi, nodup_labelled m .stencil, hstencil,
    fun d hd => ⟨hleast d hd, hgreatest d hd⟩, ?_, hsome⟩
  rw [hhalos]
  apply List.flatMap_congr
  intro d hd
  rw [hwidths d hd]

end Exact

/--
The halos of an array are exact. If its indices along the distributed dimensions are shifted by
constants, then on each side as much is exchanged as the farthest shift on this side, so all
elements that are read are there. This does not depend on the allocation of the array.
-/
theorem halos_exact (eqs : List Equation) (directions : OrdMap Dimension Direction)
    (hs : HaloScheme) (f : GridFunction) (grid : Grid)
    (h : (ofLowered (Equation.lowerAll eqs directions).value).run.value = .ok hs)
    (htensor : f.isTensor = true) (hgrid : f.grid = some grid)
    (hread : ∃ eq ∈ eqs, eq.Reads f) (hroots : (f.dimensions.map Dimension.root).Nodup)
    (hshift : ∀ d ∈ f.dimensions, grid.isDistributed d = true → ∀ eq ∈ eqs,
      ∀ r ∈ eq.references, r.function = f → (r.shiftAlong? d).isSome = true) :
    (∀ d ∈ f.dimensions, grid.isDistributed d = true →
      ∃ lo hi, IsLeast (Equation.shiftsAlong eqs f d) lo ∧
        IsGreatest (Equation.shiftsAlong eqs f d) hi ∧
        (hs.halos f).filter (·.dimension = d) =
          (if 0 < -lo then [⟨d, .left, -lo⟩] else []) ++
            (if 0 < hi then [⟨d, .right, hi⟩] else []) ∧
        ∀ k ∈ Equation.shiftsAlong eqs f d,
          (k < 0 → ∃ halo ∈ hs.halos f, halo.dimension = d ∧ halo.side = .left ∧
            -k ≤ halo.amount) ∧
          (0 < k → ∃ halo ∈ hs.halos f, halo.dimension = d ∧ halo.side = .right ∧
            k ≤ halo.amount)) ∧
    ((hs.entries.find? f).isSome = true ↔
      ∃ d ∈ f.dimensions, grid.isDistributed d = true ∧
        ∃ k ∈ Equation.shiftsAlong eqs f d, k ≠ 0) := by
  obtain ⟨ds, lo, hi, hnodup, hds, hbounds, hhalos, hsome⟩ :=
    exists_halos_eq h htensor hgrid hread hroots hshift
  constructor
  · intro d hdim hdistributed
    have hd := (hds d).2 ⟨hdim, hdistributed⟩
    obtain ⟨hleast, hgreatest⟩ := hbounds d hd
    have hfilter : (hs.halos f).filter (·.dimension = d) = Halo.ofWidths d (-lo d) (hi d) := by
      rw [hhalos]
      exact Halo.filter_flatMap_ofWidths hnodup hd fun d => (-lo d, hi d)
    refine ⟨lo d, hi d, hleast, hgreatest, hfilter, ?_⟩
    have hmem {halo : Halo} (hhalo : halo ∈ Halo.ofWidths d (-lo d) (hi d)) :
        halo ∈ hs.halos f := by
      rw [← hfilter] at hhalo
      exact List.mem_of_mem_filter hhalo
    intro k hk
    have hlo : lo d ≤ k := hleast.2 hk
    have hhi : k ≤ hi d := hgreatest.2 hk
    constructor
    · intro hneg
      have hleft := hmem (Halo.left_mem_ofWidths (by omega))
      exact ⟨_, hleft, rfl, rfl, Int.neg_le_neg hlo⟩
    · intro hpos
      have hright := hmem (Halo.right_mem_ofWidths (by omega))
      exact ⟨_, hright, rfl, rfl, hhi⟩
  · have hnil : ∀ d ∈ ds, (Halo.ofWidths d (-lo d) (hi d) = [] ↔
        ∀ k ∈ Equation.shiftsAlong eqs f d, k = 0) := by
      intro d hd
      obtain ⟨hleast, hgreatest⟩ := hbounds d hd
      rw [Halo.ofWidths_eq_nil_iff]
      constructor
      · rintro ⟨hlo, hhi⟩ k hk
        have hle := hleast.2 hk
        have hge := hgreatest.2 hk
        omega
      · intro hzero
        have hlo := hzero (lo d) hleast.1
        have hhi := hzero (hi d) hgreatest.1
        omega
    rw [hsome, hhalos, Ne, List.flatMap_eq_nil_iff]
    simp only [not_forall, exists_prop]
    constructor
    · rintro ⟨d, hd, hne⟩
      rw [hnil d hd] at hne
      obtain ⟨hdim, hdistributed⟩ := (hds d).1 hd
      simp only [not_forall, exists_prop] at hne
      exact ⟨d, hdim, hdistributed, hne⟩
    · rintro ⟨d, hdim, hdistributed, k, hk, hne⟩
      have hd := (hds d).2 ⟨hdim, hdistributed⟩
      refine ⟨d, hd, ?_⟩
      rw [hnil d hd]
      exact fun hzero => hne (hzero k hk)

section Upwind

def upwindGrid : Grid := ⟨[8], [.space "x"], .ofList [.space "x"], some (.time "t"), none⟩

def upwindField : GridFunction :=
  { FunctionDecl.declare "u" .dense [.time "t", .space "x"] [.num 8, .num 8] with
    halo := [(0, 0), (3, 3)]
    grid := some upwindGrid }

/-- `u[t + 1, x] = u[t, x - 1] + u[t, x + 2]`. -/
def upwind : Equation :=
  ⟨.access upwindField [.add [.num 1, .sym "t"], .sym "x"],
    .add [.access upwindField [.sym "t", .add [.num (-1), .sym "x"]],
      .access upwindField [.sym "t", .add [.num 2, .sym "x"]]], false⟩

theorem halos_exact_upwind :
    ∃ hs, (ofLowered (Equation.lowerAll [upwind] .empty).value).run.value = .ok hs ∧
      upwind.Reads upwindField ∧ (upwindField.dimensions.map Dimension.root).Nodup ∧
      (∀ r ∈ upwind.references, (r.shiftAlong? (.space "x")).isSome = true) ∧
      ∃ lo hi, IsLeast (Equation.shiftsAlong [upwind] upwindField (.space "x")) lo ∧
        IsGreatest (Equation.shiftsAlong [upwind] upwindField (.space "x")) hi ∧
        (if 0 < -lo then [(⟨.space "x", .left, -lo⟩ : Halo)] else []) ++
          (if 0 < hi then [⟨.space "x", .right, hi⟩] else []) =
            [⟨.space "x", .left, 1⟩, ⟨.space "x", .right, 2⟩] := by
  have hresult : (ofLowered (Equation.lowerAll [upwind] .empty).value).run.value.toOption.map
      (fun hs => (hs.halos upwindField).filter (·.dimension = .space "x")) =
        some [⟨.space "x", .left, 1⟩, ⟨.space "x", .right, 2⟩] := by
    decide +kernel
  have hread : upwind.Reads upwindField := by
    refine .inl ⟨⟨upwindField, [.sym "t", .add [.num 2, .sym "x"]]⟩, ?_, rfl⟩
    decide +kernel
  have hroots : (upwindField.dimensions.map Dimension.root).Nodup := by decide
  have hshift : ∀ r ∈ upwind.references, (r.shiftAlong? (.space "x")).isSome = true := by
    decide +kernel
  cases hs : (ofLowered (Equation.lowerAll [upwind] .empty).value).run.value with
  | error e =>
    rw [hs] at hresult
    cases hresult
  | ok scheme =>
    rw [hs] at hresult
    have hdistributed : ∀ d ∈ upwindField.dimensions, upwindGrid.isDistributed d = true →
        d = .space "x" := by
      decide +kernel
    obtain ⟨lo, hi, hleast, hgreatest, hfilter, -⟩ :=
      (halos_exact [upwind] .empty scheme upwindField upwindGrid hs rfl rfl ⟨_, by simp, hread⟩
        hroots (by
          intro d hd hdist eq heq r hr _
          rw [hdistributed d hd hdist]
          rw [List.mem_singleton] at heq
          exact hshift r (heq ▸ hr))).1 (.space "x") (by decide) (by decide +kernel)
    refine ⟨scheme, rfl, hread, hroots, hshift, lo, hi, hleast, hgreatest, ?_⟩
    rw [← hfilter]
    exact Option.some.inj hresult

end Upwind

end HaloScheme

end Stencil
