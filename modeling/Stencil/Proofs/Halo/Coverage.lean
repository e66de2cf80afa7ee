import Stencil.Proofs.Halo.Mask

/-!
This module contains when the whole halo of an array is exchanged along a dimension in which it is
read at regular indices. This is so if no index there is known to be shifted by a constant. Once one
is, only the known shifts count, and what is read at the other indices may be missing.
-/

namespace Stencil

namespace Equation

def ReadsRegularly (eq : Equation) (f : GridFunction) (d : Dimension) : Prop :=
  ∃ r, (r ∈ eq.reads ∨ eq.isIncrement = true ∧ eq.write? = some r) ∧ r.function = f ∧
    ∃ e, r.indexAlong? d = some e ∧ e.IsRegular d

def touchedAlong (eqs : List Equation) (f : GridFunction) (d : Dimension) : Set Bounds :=
  {b | ∃ eq ∈ eqs, ∃ a ∈ eq.axes, a.function = f ∧ a.dimension.root = d.root ∧ a.range? = some b}

end Equation

theorem Reference.mem_dimensions_of_indexAlong? {r : Reference} {d : Dimension} {e : Expr}
    (h : r.indexAlong? d = some e) : d ∈ r.function.dimensions := by
  obtain ⟨i, hi, -⟩ := Option.bind_eq_some_iff.1 h
  obtain ⟨_, rfl, -⟩ := List.idxOf?_eq_some_iff.1 hi
  exact List.getElem_mem _

def Side.select {α : Type} : Side → α × α → α
  | left, p => p.1
  | right, p => p.2

namespace Halo

theorem mem_ofWidths_iff_select {d : Dimension} {widths : Int × Int} {h : Halo} :
    h ∈ ofWidths d widths.1 widths.2 ↔
      0 < h.amount ∧ h.dimension = d ∧ h.amount = h.side.select widths := by
  rw [mem_ofWidths]
  obtain ⟨d', side, amount⟩ := h
  cases side <;> simp [Side.select] <;> grind

section Reach

variable {eqs : List Equation} {f : GridFunction} {d : Dimension}

theorem value_reach_jointData (eqs : List Equation) (f : GridFunction) (d : Dimension) :
    Equation.touchedAlong eqs f d = ∅ ∧ (reach (some (Equation.jointData eqs)) f d).value =
      (Word.toSigned (f.haloAlong d).1, Word.toSigned (f.haloAlong d).2) ∨
    ∃ lo hi, IsLeast (Bounds.lower '' Equation.touchedAlong eqs f d) lo ∧
      IsGreatest (Bounds.upper '' Equation.touchedAlong eqs f d) hi ∧
      (reach (some (Equation.jointData eqs)) f d).value =
        (Word.toSigned (f.offsetAlong d).value.1 - lo,
          hi - Word.toSigned (f.offsetAlong d).value.2) := by
  have hhull : Bounds.IsHull (Equation.touchedAlong eqs f d) _ :=
    Equation.isHull_jointData eqs f d.root
  unfold reach
  rw [Option.bind_some]
  cases hbounds : (Equation.jointData eqs).bounds? f d.root with
  | none =>
    rw [hbounds] at hhull
    exact .inl ⟨hhull, rfl⟩
  | some b =>
    rw [hbounds] at hhull
    exact .inr ⟨b.lower, b.upper, hhull.1, hhull.2, rfl⟩

theorem le_reach_left_iff {n : Int} :
    n ≤ (reach (some (Equation.jointData eqs)) f d).value.1 ↔
      Equation.touchedAlong eqs f d = ∅ ∧ n ≤ Word.toSigned (f.haloAlong d).1 ∨
        ∃ b ∈ Equation.touchedAlong eqs f d,
          b.lower + n ≤ Word.toSigned (f.offsetAlong d).value.1 := by
  rcases value_reach_jointData eqs f d with
    ⟨hempty, hvalue⟩ | ⟨lo, hi, ⟨⟨b, hb, rfl⟩, hleast⟩, -, hvalue⟩
  · simp [hempty, hvalue]
  · rw [hvalue]
    constructor
    · intro hle
      exact .inr ⟨b, hb, by omega⟩
    · rintro (⟨hempty, -⟩ | ⟨c, hc, hle⟩)
      · simp [hempty] at hb
      · have hmin : b.lower ≤ c.lower := hleast (Set.mem_image_of_mem _ hc)
        omega

theorem le_reach_right_iff {n : Int} :
    n ≤ (reach (some (Equation.jointData eqs)) f d).value.2 ↔
      Equation.touchedAlong eqs f d = ∅ ∧ n ≤ Word.toSigned (f.haloAlong d).2 ∨
        ∃ b ∈ Equation.touchedAlong eqs f d,
          Word.toSigned (f.offsetAlong d).value.2 + n ≤ b.upper := by
  rcases value_reach_jointData eqs f d with
    ⟨hempty, hvalue⟩ | ⟨lo, hi, -, ⟨⟨b, hb, rfl⟩, hgreatest⟩, hvalue⟩
  · simp [hempty, hvalue]
  · rw [hvalue]
    constructor
    · intro hle
      exact .inr ⟨b, hb, by omega⟩
    · rintro (⟨hempty, -⟩ | ⟨c, hc, hle⟩)
      · simp [hempty] at hb
      · have hmax : c.upper ≤ b.upper := hgreatest (Set.mem_image_of_mem _ hc)
        omega

end Reach

end Halo

namespace HaloScheme

def Covers (hs : HaloScheme) (f : GridFunction) (d : Dimension) (side : Side) (n : Int) : Prop :=
  n ≤ 0 ∨ ∃ halo ∈ hs.halos f, halo.dimension = d ∧ halo.side = side ∧ n ≤ halo.amount

section Stencil

variable {eqs : List Equation} {space : IterationSpace} {data : DataSpace} {hs : HaloScheme}
variable {scope : Scope} {classification : Halo.Classification} {f : GridFunction} {grid : Grid}
variable {labels : OrdMap Dimension HaloLabel} {d : Dimension}

theorem Built.exists_stencil_label (h : Built eqs space data hs scope classification)
    (htensor : f.isTensor = true) (hgrid : f.grid = some grid)
    (hdistributed : grid.isDistributed d = true)
    (hread : ∃ eq ∈ eqs, eq.ReadsRegularly f d) :
    ∃ labels, classification.find? f = some labels ∧ labels.find? d = some .stencil := by
  obtain ⟨eq, heq, r, hr, rfl, e, he, hregular⟩ := hread
  obtain ⟨t, ht⟩ := exists_mem_reads h.scope_eq heq hr
  have hlabel := Halo.value_label?_of_indexAlong? he (Access.value_isRegularIndex_iff.2 hregular)
    grid space t eq.isIncrement .read
  rw [if_pos hdistributed] at hlabel
  exact Halo.exists_find?_eq_of_mem_requests h.classify_eq htensor hgrid
    (Halo.mem_requests.2 ⟨_, ht, r.mem_dimensions_of_indexAlong? he, hlabel⟩)

theorem mem_labelledHalos_iff {h : Halo} (hlabel : labels.find? h.dimension = some .stencil) :
    h ∈ labelledHalos data f labels ↔
      0 < h.amount ∧ h.amount = h.side.select (Halo.reach (some data) f h.dimension).value := by
  unfold labelledHalos
  rw [List.mem_append, Halo.mem_along, Halo.mem_along, mem_labelled, mem_labelled, hlabel,
    Halo.mem_ofWidths_iff_select]
  simp

theorem Built.covers_iff (h : Built eqs space data hs scope classification)
    (hlabels : classification.find? f = some labels) (hlabel : labels.find? d = some .stencil)
    {side : Side} {n : Int} :
    hs.Covers f d side n ↔ n ≤ 0 ∨ n ≤ side.select (Halo.reach (some data) f d).value := by
  unfold Covers
  rw [(h.halos_eq hlabels).1]
  constructor
  · rintro (hn | ⟨halo, hmem, rfl, rfl, hle⟩)
    · exact .inl hn
    · rw [mem_labelledHalos_iff hlabel] at hmem
      exact .inr (hmem.2 ▸ hle)
  · rintro (hn | hle)
    · exact .inl hn
    · by_cases hn : n ≤ 0
      · exact .inl hn
      · refine .inr ⟨⟨d, side, side.select (Halo.reach (some data) f d).value⟩, ?_, rfl, rfl, hle⟩
        exact (mem_labelledHalos_iff hlabel).2 ⟨by dsimp only; omega, rfl⟩

end Stencil

/--
An array that is read at a regular index along a distributed dimension is exchanged in full there
if no index is known to be shifted by a constant. If one is, this depends on the known shifts alone:
the whole halo is exchanged only if one of them goes through all of it.
-/
theorem covers_haloAlong_iff (eqs : List Equation) (directions : OrdMap Dimension Direction)
    (hs : HaloScheme) (f : GridFunction) (grid : Grid) (d : Dimension)
    (h : (ofLowered (Equation.lowerAll eqs directions).value).run.value = .ok hs)
    (htensor : f.isTensor = true) (hgrid : f.grid = some grid)
    (hdistributed : grid.isDistributed d = true)
    (hread : ∃ eq ∈ eqs, eq.ReadsRegularly f d) :
    (hs.Covers f d .left (f.haloAlong d).1 ↔ (f.haloAlong d).1 = 0 ∨
      Equation.touchedAlong eqs f d = ∅ ∧ Word.isSigned (f.haloAlong d).1 = true ∨
      ∃ b ∈ Equation.touchedAlong eqs f d,
        b.lower + (f.haloAlong d).1 ≤ Word.toSigned (f.offsetAlong d).value.1) ∧
    (hs.Covers f d .right (f.haloAlong d).2 ↔ (f.haloAlong d).2 = 0 ∨
      Equation.touchedAlong eqs f d = ∅ ∧ Word.isSigned (f.haloAlong d).2 = true ∨
      ∃ b ∈ Equation.touchedAlong eqs f d,
        Word.toSigned (f.offsetAlong d).value.2 + (f.haloAlong d).2 ≤ b.upper) := by
  rw [Equation.ofLowered_lowerAll] at h
  obtain ⟨scope, classification, hbuilt⟩ := exists_built h
  obtain ⟨labels, hlabels, hlabel⟩ :=
    hbuilt.exists_stencil_label htensor hgrid hdistributed hread
  have hzero (n : Nat) : (n : Int) ≤ 0 ↔ n = 0 := by omega
  rw [hbuilt.covers_iff hlabels hlabel, hbuilt.covers_iff hlabels hlabel, hzero, hzero]
  constructor
  · rw [← Word.le_toSigned_iff]
    exact or_congr_right Halo.le_reach_left_iff
  · rw [← Word.le_toSigned_iff]
    exact or_congr_right Halo.le_reach_right_iff

section Stretched

def stretchedGrid : Grid := ⟨[8], [.space "x"], .ofList [.space "x"], none, none⟩

def stretchedField (name : String) : GridFunction :=
  { FunctionDecl.declare name .dense [.space "x"] [.num 8] with
    halo := [(2, 2)]
    grid := some stretchedGrid }

def doubledRead : Reference := ⟨stretchedField "u", [.mul [.num 2, .sym "x"]]⟩

/-- `v[x] = u[2 * x]`. -/
def stretched : Equation :=
  ⟨.access (stretchedField "v") [.sym "x"],
    .access (stretchedField "u") [.mul [.num 2, .sym "x"]], false⟩

/-- `v[x] = u[x] + u[2 * x]`. -/
def stretchedSum : Equation :=
  ⟨.access (stretchedField "v") [.sym "x"],
    .add [.access (stretchedField "u") [.sym "x"],
      .access (stretchedField "u") [.mul [.num 2, .sym "x"]]], false⟩

theorem readsRegularly_of_doubledRead {eq : Equation} (h : doubledRead ∈ eq.reads) :
    eq.ReadsRegularly (stretchedField "u") (.space "x") := by
  refine ⟨doubledRead, .inl h, rfl, _, rfl, ?_⟩
  rw [← Access.value_isRegularIndex_iff]
  decide +kernel

/-- The extent of the only read is not known, so the whole halo is exchanged. -/
theorem covers_haloAlong_iff_stretched :
    ∃ hs, (ofLowered (Equation.lowerAll [stretched] .empty).value).run.value = .ok hs ∧
      stretched.ReadsRegularly (stretchedField "u") (.space "x") ∧
      doubledRead.shiftAlong? (.space "x") = none ∧
      (stretchedField "u").haloAlong (.space "x") = (2, 2) ∧
      hs.Covers (stretchedField "u") (.space "x") .left 2 ∧
      hs.Covers (stretchedField "u") (.space "x") .right 2 := by
  have hread : stretched.ReadsRegularly (stretchedField "u") (.space "x") :=
    readsRegularly_of_doubledRead (by decide +kernel)
  have hok : (ofLowered (Equation.lowerAll [stretched] .empty).value).run.value.toOption.isSome =
      true := by
    decide +kernel
  have hempty : Equation.touchedAlong [stretched] (stretchedField "u") (.space "x") = ∅ := by
    have hrange : ∀ a ∈ stretched.axes, a.function = stretchedField "u" → a.range? = none := by
      decide +kernel
    rw [Set.eq_empty_iff_forall_notMem]
    rintro b ⟨eq, heq, a, ha, hf, -, hb⟩
    rw [List.mem_singleton] at heq
    rw [hrange a (heq ▸ ha) hf] at hb
    cases hb
  cases hs : (ofLowered (Equation.lowerAll [stretched] .empty).value).run.value with
  | error e =>
    rw [hs] at hok
    cases hok
  | ok scheme =>
    obtain ⟨hleft, hright⟩ := covers_haloAlong_iff [stretched] .empty scheme (stretchedField "u")
      stretchedGrid (.space "x") hs rfl rfl (by decide +kernel) ⟨_, by simp, hread⟩
    exact ⟨scheme, rfl, hread, by decide +kernel, by decide,
      hleft.2 (.inr (.inl ⟨hempty, by decide⟩)), hright.2 (.inr (.inl ⟨hempty, by decide⟩))⟩

/-- Beside a read without a shift, the one with an unknown extent gets nothing. -/
theorem not_covers_stretchedSum :
    ∃ hs, (ofLowered (Equation.lowerAll [stretchedSum] .empty).value).run.value = .ok hs ∧
      stretchedSum.ReadsRegularly (stretchedField "u") (.space "x") ∧
      doubledRead ∈ stretchedSum.reads ∧ doubledRead.shiftAlong? (.space "x") = none ∧
      (stretchedField "u").haloAlong (.space "x") = (2, 2) ∧
      ¬ hs.Covers (stretchedField "u") (.space "x") .left 2 ∧
      ¬ hs.Covers (stretchedField "u") (.space "x") .right 2 := by
  have hmem : doubledRead ∈ stretchedSum.reads := by decide +kernel
  have hresult : (ofLowered (Equation.lowerAll [stretchedSum] .empty).value).run.value.toOption.map
      (fun hs => hs.halos (stretchedField "u")) = some [] := by
    decide +kernel
  cases hs : (ofLowered (Equation.lowerAll [stretchedSum] .empty).value).run.value with
  | error e =>
    rw [hs] at hresult
    cases hresult
  | ok scheme =>
    rw [hs] at hresult
    have hnone : scheme.halos (stretchedField "u") = [] := Option.some.inj hresult
    refine ⟨scheme, rfl, readsRegularly_of_doubledRead hmem, hmem, by decide +kernel, by decide,
      ?_, ?_⟩ <;> simp [Covers, hnone]

end Stretched

end HaloScheme

end Stencil
