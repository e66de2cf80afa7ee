import Stencil.Proofs.Halo.Basic
import Stencil.Proofs.Loops
import Stencil.Proofs.Scope.Uniform

/-!
This module contains what a halo scheme promises about a sweep: an element that is written during
the sweep is not needed at another point of a distributed dimension before an outer, undivided
dimension moves on. So it is enough to exchange halos once, before the sweep.
-/

namespace Stencil

def Reference.shifts (r : Reference) : List Int :=
  OffsetVector.cell 0 r.function.dimensions r.indices

def Dimension.firstDifference? : List Dimension → List Int → List Int → Option Dimension
  | d :: ds, k :: ks, l :: ls => if k = l then firstDifference? ds ks ls else some d
  | _, _, _ => none

theorem Dimension.exists_firstDifference? {ds : List Dimension} {ks ls : List Int}
    (hk : ks.length = ds.length) (hl : ls.length = ds.length) (hne : ks ≠ ls) :
    ∃ d, firstDifference? ds ks ls = some d := by
  induction ds generalizing ks ls with
  | nil =>
    rw [List.length_nil, List.length_eq_zero_iff] at hk hl
    exact absurd (hk.trans hl.symm) hne
  | cons d ds ih =>
    obtain ⟨k, ks, rfl⟩ := List.exists_cons_of_length_eq_add_one hk
    obtain ⟨l, ls, rfl⟩ := List.exists_cons_of_length_eq_add_one hl
    rw [firstDifference?]
    split
    · next heq =>
      apply ih (by simpa using hk) (by simpa using hl)
      intro htail
      exact hne (by rw [heq, htail])
    · exact ⟨d, rfl⟩

theorem OffsetVector.length_cell {ds : List Dimension} {v : OffsetVector} (h : Uniform ds v)
    (p : Point) : (cell p ds v).length = ds.length := by
  unfold cell
  rw [List.length_zipWith, ← List.Forall₂.length_eq h, min_self]

namespace Dependence

theorem value_isIrregularAlong {a b : TimedAccess} (h : a.IsUniform) (d : Dimension) :
    (isIrregularAlong a b d).value = false := by
  have hregular : ∀ m ∈ a.access.regularity.value, m = true := by
    unfold Access.regularity
    rw [Checked.value_mapM]
    intro m hm
    obtain ⟨e, he, rfl⟩ := List.mem_map.1 hm
    obtain ⟨k, hk⟩ := (List.forall₂_iff_zip.1 h).2 he
    exact Access.value_isRegularIndex hk
  unfold isIrregularAlong
  simp only [Checked.value_bind, Checked.value_pure, List.any_eq_false]
  intro e he
  have hmode := hregular e.2.1 (List.of_mem_zip (List.of_mem_zip he).2).1
  simp [hmode]

theorem firstCause_ofInts_cons (d : Dimension) (ds : List Dimension) (i : Int) (is : List Int) :
    firstCause (d :: ds) (.ofInts (i :: is)) =
      if 0 < i then some d else firstCause ds (.ofInts is) := by
  unfold OffsetVector.ofInts
  rw [List.map_cons, firstCause_cons, Expr.toInt?_ofInt]
  simp

end Dependence

namespace Point

variable {ds : List Dimension} {dirs : List Direction} {p q : Point}

theorem firstCause_coordinates (hlength : ds.length = dirs.length)
    (h : p.coordinates (ds.zip dirs) < q.coordinates (ds.zip dirs)) :
    Dependence.firstCause ds (.ofInts (Point.coordinates (ds.zip dirs) (q - p))) =
      ds.find? fun d => p d != q d := by
  unfold coordinates at h ⊢
  induction ds generalizing dirs with
  | nil => rfl
  | cons d ds ih =>
    cases dirs with
    | nil => simp at hlength
    | cons dir dirs =>
      rw [List.zip_cons_cons, List.map_cons, List.map_cons, List.cons_lt_cons_iff] at h
      rw [List.zip_cons_cons, List.map_cons, Dependence.firstCause_ofInts_cons, List.find?_cons,
        Pi.sub_apply, Direction.signed_sub]
      rcases h with hlt | ⟨heq, hlt⟩
      · have hne : (p d != q d) = true := by
          rw [bne_iff_ne]
          intro heq
          simp [heq] at hlt
        rw [if_pos (by omega), hne]
      · have hsame : (p d != q d) = false := by
          simpa using dir.signed_injective heq
        rw [if_neg (by omega), hsame]
        exact ih (by simpa using hlength) hlt

theorem coordinates_ne (hlength : ds.length = dirs.length)
    (h : (ds.find? fun d => p d != q d).isSome = true) :
    p.coordinates (ds.zip dirs) ≠ q.coordinates (ds.zip dirs) := by
  unfold coordinates
  induction ds generalizing dirs with
  | nil => simp at h
  | cons d ds ih =>
    cases dirs with
    | nil => simp at hlength
    | cons dir dirs =>
      intro heq
      rw [List.zip_cons_cons, List.map_cons, List.map_cons, List.cons.injEq] at heq
      have hsame : (p d != q d) = false := by
        simpa using dir.signed_injective heq.1
      rw [List.find?_cons, hsame] at h
      exact ih (by simpa using hlength) h heq.2

theorem firstDifference?_of_cell_eq {xs ys : OffsetVector} (hx : OffsetVector.Uniform ds xs)
    (hy : OffsetVector.Uniform ds ys)
    (hcell : OffsetVector.cell p ds xs = OffsetVector.cell q ds ys) :
    Dimension.firstDifference? ds (OffsetVector.cell 0 ds xs) (OffsetVector.cell 0 ds ys) =
      ds.find? fun d => p d != q d := by
  unfold OffsetVector.cell at hcell ⊢
  induction hx generalizing ys with
  | nil => rfl
  | @cons d x ds xs _ _ ih =>
    cases hy with
    | @cons _ y _ ys _ hys =>
      rw [List.zipWith_cons_cons, List.zipWith_cons_cons, List.cons.injEq] at hcell
      rw [List.zipWith_cons_cons, List.zipWith_cons_cons, Dimension.firstDifference?,
        List.find?_cons, ih hys hcell.2]
      have hhead := hcell.1
      by_cases hd : p d = q d
      · rw [if_pos, bne_eq_false_iff_eq.2 hd]
        simp only [Pi.zero_apply]
        omega
      · rw [if_neg, bne_iff_ne.2 hd]
        simp only [Pi.zero_apply]
        omega

end Point

theorem DependenceKind.exists_ofModes_swap {m n : AccessMode} {kind : DependenceKind}
    (h : ofModes m n = some kind) : ∃ kind', ofModes n m = some kind' := by
  cases m <;> cases n <;> first | exact ⟨_, rfl⟩ | cases h

namespace Halo

variable {eqs : List (Equation × IterationSpace)} {s : Scope} {f : GridFunction}
variable {a b : TimedAccess} {kind : DependenceKind} {p q : Point} {d : Dimension}

theorem undistributed_of_lt (h : (Scope.ofEquations eqs).run.value = .ok s)
    (hcheck : check s = .ok ()) (htensor : f.isTensor = true) (ha : a ∈ s.accesses f)
    (hb : b ∈ s.accesses f) (huniform : a.IsUniform) (huniform' : b.IsUniform)
    (hkind : DependenceKind.ofModes a.access.mode b.access.mode = some kind)
    (hcell : a.cell p = b.cell q) (hlt : a.coordinates p < a.coordinates q)
    (hfirst : (f.dimensions.find? fun d => p d != q d) = some d) :
    ∃ grid, f.grid = some grid ∧ grid.isDistributed d = false := by
  obtain ⟨-, -, hs⟩ := Scope.ofEquations_eq_ok h
  obtain ⟨dep, hdep, -, hsource, hsink, hdistance⟩ :=
    Scope.exists_dependence h ha hb huniform huniform' hkind hlt hcell
  obtain ⟨-, -, -, -, hcause, hindirect⟩ := Scope.between_eq_ok (hs.between_eq hdep)
  have hfunction : dep.function = f := by
    rw [Dependence.function, hsource, Scope.function_of_mem h ha]
  have hdimensions : a.dimensions = f.dimensions := by
    rw [← Scope.function_of_mem h ha]
    rfl
  have hcarried : dep.cause = some d := by
    rw [hcause, hsource, hdistance, ← hfirst, ← hdimensions]
    exact Point.firstCause_coordinates (Scope.length_directions h ha) hlt
  have hdirect : dep.isIndirect = false := by
    rw [hindirect d hcarried, hsource]
    exact Dependence.value_isIrregularAlong huniform d
  obtain ⟨grid, hgrid, hnot⟩ :=
    grid_of_checkDependence (check_eq_ok.1 hcheck dep hdep) (hfunction ▸ htensor)
  rw [hfunction] at hgrid
  exact ⟨grid, hgrid, hnot d hcarried hdirect⟩

theorem undistributed_of_cell_eq (h : (Scope.ofEquations eqs).run.value = .ok s)
    (hcheck : check s = .ok ()) (htensor : f.isTensor = true) (ha : a ∈ s.accesses f)
    (hb : b ∈ s.accesses f) (huniform : a.IsUniform) (huniform' : b.IsUniform)
    (hkind : DependenceKind.ofModes a.access.mode b.access.mode = some kind)
    (hcell : a.cell p = b.cell q) (hfirst : (f.dimensions.find? fun d => p d != q d) = some d) :
    ∃ grid, f.grid = some grid ∧ grid.isDistributed d = false := by
  have haligned := Scope.aligned_of_ofModes h ha hb hkind
  have hne : a.coordinates p ≠ a.coordinates q := by
    apply Point.coordinates_ne (Scope.length_directions h ha)
    have hdimensions : a.dimensions = f.dimensions := by
      rw [← Scope.function_of_mem h ha]
      rfl
    rw [hdimensions, hfirst]
    rfl
  rcases lt_or_gt_of_ne hne with hlt | hgt
  · exact undistributed_of_lt h hcheck htensor ha hb huniform huniform' hkind hcell hlt hfirst
  · -- The access at `q` comes first, so the dependence goes the other way.
    obtain ⟨kind', hkind'⟩ := DependenceKind.exists_ofModes_swap hkind
    have hgt' : b.coordinates q < b.coordinates p := by
      unfold TimedAccess.coordinates at hgt ⊢
      rw [← haligned.dimensions, ← haligned.directions]
      exact hgt
    have hfirst' : (f.dimensions.find? fun d => q d != p d) = some d := by
      simpa only [bne_comm] using hfirst
    exact undistributed_of_lt h hcheck htensor hb ha huniform' huniform hkind' hcell.symm hgt'
      hfirst'

end Halo

namespace HaloScheme

/--
One exchange before a sweep is enough. If a scheme can be built, then a write and another access of
an array are only ever to the same element at points that first differ along an undivided dimension.
-/
theorem exchange_before_sweep (eqs : List Equation) (space : IterationSpace) (data : DataSpace)
    (hs : HaloScheme) (f : GridFunction)
    (h : (ofEquations eqs space data).run.value = .ok hs) (htensor : f.isTensor = true)
    (hnodup : f.dimensions.Nodup)
    (huniform : ∀ eq ∈ eqs, ∀ r ∈ eq.references, r.function = f →
      OffsetVector.Uniform f.dimensions r.indices) :
    ∀ eq ∈ eqs, ∀ w, eq.write? = some w → w.function = f →
      ∀ eq' ∈ eqs, ∀ r ∈ eq'.references, r.function = f →
        (w.shifts ≠ r.shifts → ∃ grid, f.grid = some grid ∧ ∃ d,
          Dimension.firstDifference? f.dimensions w.shifts r.shifts = some d ∧
            grid.isDistributed d = false) ∧
        ∀ (p q : Point) (d : Dimension),
          OffsetVector.cell p f.dimensions w.indices = OffsetVector.cell q f.dimensions r.indices →
          (f.dimensions.find? fun d => p d != q d) = some d →
          ∃ grid, f.grid = some grid ∧ grid.isDistributed d = false := by
  rintro eq heq ⟨_, ws⟩ hw rfl eq' heq' ⟨g, rs⟩ hr hg
  obtain rfl : g = _ := hg
  obtain ⟨scope, _, hbuilt⟩ := exists_built h
  have hwuniform := huniform eq heq _ (List.mem_append_left _ (by simp [hw])) rfl
  have hruniform := huniform eq' heq' _ hr rfl
  have hpoints : ∀ (p q : Point) (d : Dimension),
      OffsetVector.cell p g.dimensions ws = OffsetVector.cell q g.dimensions rs →
      (g.dimensions.find? fun d => p d != q d) = some d →
      ∃ grid, g.grid = some grid ∧ grid.isDistributed d = false := by
    intro p q d hcell hfirst
    obtain ⟨t, ht⟩ := List.mem_iff_getElem?.1 (List.mem_map_of_mem heq)
    obtain ⟨t', ht'⟩ := List.mem_iff_getElem?.1 (List.mem_map_of_mem heq')
    have hwrite := List.mem_append_left (scope.reads.of g)
      (Scope.mem_writes hbuilt.scope_eq ht hw)
    obtain ⟨mode, haccess, -⟩ := Scope.exists_entry hbuilt.scope_eq ht' hr
    obtain ⟨kind, hkind⟩ : ∃ kind, DependenceKind.ofModes .write mode = some kind := by
      cases mode <;> exact ⟨_, rfl⟩
    exact Halo.undistributed_of_cell_eq hbuilt.scope_eq hbuilt.check_eq htensor hwrite haccess
      hwuniform hruniform hkind hcell hfirst
  refine ⟨?_, hpoints⟩
  intro hne
  obtain ⟨d, hd⟩ := Dimension.exists_firstDifference?
    (OffsetVector.length_cell hwuniform 0) (OffsetVector.length_cell hruniform 0) hne
  -- The write at the origin meets the other access at the point as far away as their shifts.
  obtain ⟨q, hcell⟩ := OffsetVector.exists_cell_eq hnodup hwuniform hruniform
  have hfirst := Point.firstDifference?_of_cell_eq hwuniform hruniform hcell
  obtain ⟨grid, hgrid, hnot⟩ := hpoints 0 q d hcell (hfirst.symm.trans hd)
  exact ⟨grid, hgrid, d, hd, hnot⟩

section Advection

def advected : GridFunction :=
  { FunctionDecl.declare "u" .dense [.time "t", .space "x"] [.num 8, .num 8] with
    grid := some ⟨[8], [.space "x"], .ofList [.space "x"], some (.time "t"), none⟩ }

/-- `u[t + 1, x] = u[t, x - 1]`. -/
def advection : Equation :=
  ⟨.access advected [.add [.num 1, .sym "t"], .sym "x"],
    .access advected [.sym "t", .add [.num (-1), .sym "x"]], false⟩

def advectionWrite : Reference := ⟨advected, [.add [.num 1, .sym "t"], .sym "x"]⟩

def advectionRead : Reference := ⟨advected, [.sym "t", .add [.num (-1), .sym "x"]]⟩

def advectionScheme : HaloAnalysis HaloScheme :=
  ofEquations [advection] (advection.iterationSpace .empty .empty) advection.dataSpace.value

theorem exchange_before_sweep_advection :
    (∃ hs, advectionScheme.run.value = .ok hs) ∧
      (∀ r ∈ advection.references, OffsetVector.Uniform advected.dimensions r.indices) ∧
      advectionWrite.shifts = [1, 0] ∧ advectionRead.shifts = [0, -1] ∧
      ∃ grid, advected.grid = some grid ∧ ∃ d,
        Dimension.firstDifference? advected.dimensions advectionWrite.shifts
          advectionRead.shifts = some d ∧ grid.isDistributed d = false := by
  have hresult : advectionScheme.run.value.toOption.map HaloScheme.functions = some [advected] := by
    decide +kernel
  have hreferences : advection.references = [advectionWrite, advectionRead] := by
    decide +kernel
  have huniform : ∀ r ∈ advection.references,
      OffsetVector.Uniform advected.dimensions r.indices := by
    decide +kernel
  have hwrite : advectionWrite.shifts = [1, 0] := by decide +kernel
  have hread : advectionRead.shifts = [0, -1] := by decide +kernel
  cases hs : advectionScheme.run.value with
  | error e =>
    rw [hs] at hresult
    cases hresult
  | ok scheme =>
    refine ⟨⟨scheme, rfl⟩, huniform, hwrite, hread, ?_⟩
    have hsweep := exchange_before_sweep _ _ _ scheme advected hs (by decide) (by decide)
      (by simpa using fun r hr _ => huniform r hr) advection (by simp) advectionWrite rfl rfl
      advection (by simp) advectionRead (by simp [hreferences]) rfl
    apply hsweep.1
    rw [hwrite, hread]
    decide

end Advection

end HaloScheme

end Stencil
