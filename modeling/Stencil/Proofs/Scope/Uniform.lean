import Stencil.Proofs.Scope.Basic
import Stencil.Proofs.Uniform

/-!
This module contains the exactness of dependences between uniform accesses: an access depends on
another one, at a distance, exactly if they are to the same element at two points that are this far
apart.
-/

namespace Stencil

namespace TimedAccess

def IsUniform (a : TimedAccess) : Prop := OffsetVector.Uniform a.dimensions a.indices

instance (a : TimedAccess) : Decidable a.IsUniform := by
  unfold IsUniform
  infer_instance

def cell (p : Point) (a : TimedAccess) : List Int := OffsetVector.cell p a.dimensions a.indices

def coordinates (a : TimedAccess) (p : Point) : List Int :=
  p.coordinates (a.dimensions.zip a.directions)

end TimedAccess

namespace Scope

variable {eqs : List (Equation × IterationSpace)} {s : Scope} {f : GridFunction}
variable {a b : TimedAccess} {p q : Point}

theorem length_directions (h : (ofEquations eqs).run.value = .ok s) (ha : a ∈ s.accesses f) :
    a.dimensions.length = a.directions.length := by
  obtain ⟨e, -, r, -, -, heq⟩ := exists_access h ha
  rw [heq, TimedAccess.directions_ofReference, List.length_map]
  rfl

theorem function_of_mem (h : (ofEquations eqs).run.value = .ok s) (ha : a ∈ s.accesses f) :
    a.function = f := by
  obtain ⟨e, -, r, -, hf, heq⟩ := exists_access h ha
  rw [heq, TimedAccess.function_ofReference, hf]

theorem isUniform_of_mem (h : (ofEquations eqs).run.value = .ok s)
    (huniform : ∀ e ∈ eqs, ∀ r ∈ e.1.references,
      OffsetVector.Uniform r.function.dimensions r.indices)
    (ha : a ∈ s.accesses f) : a.IsUniform := by
  obtain ⟨e, he, r, hr, -, heq⟩ := exists_access h ha
  rw [heq]
  exact huniform e (List.mem_of_getElem? he) r hr

theorem matched_of_isUniform (h : (ofEquations eqs).run.value = .ok s) (ha : a ∈ s.accesses f)
    (hb : b ∈ s.accesses f) (huniform : a.IsUniform) (huniform' : b.IsUniform)
    (haligned : a.Aligned b) : a.Matched b := by
  have hfunction : a.function = b.function := by
    rw [function_of_mem h ha, function_of_mem h hb]
  have hcovered : a.indices.length = a.directions.length := by
    rw [← length_directions h ha]
    exact (List.Forall₂.length_eq huniform).symm
  have hsame : OffsetVector.Uniform a.dimensions b.indices := by
    rw [haligned.dimensions]
    exact huniform'
  exact ⟨haligned, hfunction, hcovered, OffsetVector.Uniform.reversible huniform hsame⟩

theorem offsets_of_cell_eq (h : (ofEquations eqs).run.value = .ok s) (ha : a ∈ s.accesses f)
    (huniform : a.IsUniform) (huniform' : b.IsUniform) (haligned : a.Aligned b)
    (hcell : a.cell p = b.cell q) :
    TimedAccess.offsets a.directions a.indices b.indices = .ofInts (a.coordinates (q - p)) := by
  unfold TimedAccess.IsUniform at huniform'
  unfold TimedAccess.cell at hcell
  rw [← haligned.dimensions] at huniform' hcell
  exact TimedAccess.offsets_of_cell_eq (length_directions h ha) huniform huniform' hcell

theorem exists_dependence (h : (ofEquations eqs).run.value = .ok s) (ha : a ∈ s.accesses f)
    (hb : b ∈ s.accesses f) (huniform : a.IsUniform) (huniform' : b.IsUniform)
    {kind : DependenceKind}
    (hkind : DependenceKind.ofModes a.access.mode b.access.mode = some kind)
    (hlt : a.coordinates p < a.coordinates q) (hcell : a.cell p = b.cell q) :
    ∃ d ∈ s.dependences, d.kind = kind ∧ d.source = a ∧ d.sink = b ∧
      d.distance = .ofInts (a.coordinates (q - p)) := by
  obtain ⟨-, -, hs⟩ := ofEquations_eq_ok h
  have haligned := aligned_of_ofModes h ha hb hkind
  have hmatched := matched_of_isUniform h ha hb huniform huniform' haligned
  have hoffsets := offsets_of_cell_eq h ha huniform huniform' haligned hcell
  have horder : a.order b = some .gt := by
    unfold TimedAccess.order
    rw [hoffsets]
    exact (OffsetVector.sign?_coordinates_eq_gt _ p q).2 hlt
  obtain ⟨d, hd, hdkind, hsource, hsink⟩ := depends_of_order_eq_gt h ha hb hkind hmatched horder
  have hdistance := hs.distance_eq hd
  rw [hsource, hsink, TimedAccess.distance_eq_ok, hoffsets] at hdistance
  exact ⟨d, hd, hdkind, hsource, hsink, hdistance.2⟩

theorem order_eq_gt_of_isZero {d : Dependence} (hs : Gathered s) (hd : d ∈ s.dependences)
    (hmatched : d.source.Matched d.sink) (hsome : (d.source.order d.sink).isSome = true)
    (hzero : d.distance.isZero = false) : d.source.order d.sink = some .gt := by
  have hlt := order_ne_lt_of_depends hs ⟨d, hd, rfl, rfl, rfl⟩ hmatched
  have heq : d.source.order d.sink ≠ some .eq := by
    unfold TimedAccess.order
    rw [Ne, OffsetVector.sign?_eq_eq_iff, ← (TimedAccess.distance_eq_ok.1 (hs.distance_eq hd)).2,
      hzero]
    exact Bool.false_ne_true
  obtain ⟨o, ho⟩ := Option.isSome_iff_exists.1 hsome
  cases o with
  | lt => exact absurd ho hlt
  | eq => exact absurd ho heq
  | gt => exact ho

theorem exists_points {d : Dependence} (h : (ofEquations eqs).run.value = .ok s)
    (hnodup : f.dimensions.Nodup) (ha : d.source ∈ s.accesses f) (hb : d.sink ∈ s.accesses f)
    (huniform : d.source.IsUniform) (huniform' : d.sink.IsUniform)
    (haligned : d.source.Aligned d.sink) (hd : d ∈ s.dependences)
    (hzero : d.distance.isZero = false) :
    ∃ p q : Point, d.source.coordinates p < d.source.coordinates q ∧
      d.source.cell p = d.sink.cell q ∧
      d.distance = .ofInts (d.source.coordinates (q - p)) := by
  obtain ⟨-, -, hs⟩ := ofEquations_eq_ok h
  have hmatched := matched_of_isUniform h ha hb huniform huniform' haligned
  have hdistance := (TimedAccess.distance_eq_ok.1 (hs.distance_eq hd)).2
  -- The source may be executed anywhere, so we take the origin.
  obtain ⟨q, hcell⟩ : ∃ q, d.source.cell 0 = d.sink.cell q := by
    have hsame : OffsetVector.Uniform d.source.dimensions d.sink.indices := by
      rw [haligned.dimensions]
      exact huniform'
    unfold TimedAccess.cell
    rw [← haligned.dimensions]
    apply OffsetVector.exists_cell_eq _ huniform hsame
    rw [← function_of_mem h ha] at hnodup
    exact hnodup
  have hoffsets := offsets_of_cell_eq h ha huniform huniform' haligned hcell
  have hsign : d.source.order d.sink =
      OffsetVector.sign? (.ofInts (d.source.coordinates (q - 0))) := by
    unfold TimedAccess.order
    rw [hoffsets]
  have hsome : (d.source.order d.sink).isSome = true := by
    rw [hsign]
    exact OffsetVector.isSome_sign?_ofInts _
  have horder := order_eq_gt_of_isZero hs hd hmatched hsome hzero
  rw [hsign] at horder
  have hlt := (OffsetVector.sign?_coordinates_eq_gt _ 0 q).1 horder
  exact ⟨0, q, hlt, hcell, hdistance.trans hoffsets⟩

/--
Dependence analysis is exact on uniform accesses: there is a dependence if two accesses to an array,
one of them a write, are to the same element at points of which the first one comes first, and a
dependence at a distance always comes from such points. Its distance is the distance of the points.
-/
theorem dependences_exact (eqs : List (Equation × IterationSpace)) (s : Scope) (f : GridFunction)
    (h : (ofEquations eqs).run.value = .ok s) (hnodup : f.dimensions.Nodup)
    (huniform : ∀ a ∈ s.accesses f, a.IsUniform) :
    (∀ a ∈ s.accesses f, ∀ b ∈ s.accesses f, ∀ kind,
      DependenceKind.ofModes a.access.mode b.access.mode = some kind →
      ∀ p q : Point, a.coordinates p < a.coordinates q → a.cell p = b.cell q →
        ∃ d ∈ s.dependences, d.kind = kind ∧ d.source = a ∧ d.sink = b ∧
          d.distance = .ofInts (a.coordinates (q - p))) ∧
    (∀ d ∈ s.dependences, d.function = f → d.distance.isZero = false →
      d.source ∈ s.accesses f ∧ d.sink ∈ s.accesses f ∧
      DependenceKind.ofModes d.source.access.mode d.sink.access.mode = some d.kind ∧
      ∃ p q : Point, d.source.coordinates p < d.source.coordinates q ∧
        d.source.cell p = d.sink.cell q ∧
        d.distance = .ofInts (d.source.coordinates (q - p))) := by
  refine ⟨?_, ?_⟩
  · intro a ha b hb kind hkind p q hlt hcell
    exact exists_dependence h ha hb (huniform a ha) (huniform b hb) hkind hlt hcell
  · intro d hd hfunction hzero
    obtain ⟨g, ha, hb, hkind⟩ := accesses_of_depends h ⟨d, hd, rfl, rfl, rfl⟩
    obtain rfl : g = f := (function_of_mem h ha).symm.trans hfunction
    have haligned := aligned_of_ofModes h ha hb hkind
    exact ⟨ha, hb, hkind,
      exists_points h hnodup ha hb (huniform _ ha) (huniform _ hb) haligned hd hzero⟩

section Skew

def plane : GridFunction := .declare "u" .dense [.space "x", .space "y"] [.num 8, .num 8]

/-- `u[x, y] = u[x - 1, y + 1]`. -/
def skewUpdate : Equation :=
  ⟨.access plane [.sym "x", .sym "y"],
    .access plane [.add [.num (-1), .sym "x"], .add [.num 1, .sym "y"]], false⟩

def skewSpace : IterationSpace := .ofDirections (.ofList [(.space "y", .backward)])

def skewWrite : TimedAccess :=
  .ofReference skewSpace 0 false .write ⟨plane, [.sym "x", .sym "y"]⟩

def skewRead : TimedAccess :=
  .ofReference skewSpace 0 false .read
    ⟨plane, [.add [.num (-1), .sym "x"], .add [.num 1, .sym "y"]]⟩

theorem dependences_exact_skewUpdate :
    ∃ s, (ofEquations [(skewUpdate, skewSpace)]).run.value = .ok s ∧ plane.dimensions.Nodup ∧
      (∀ a ∈ s.accesses plane, a.IsUniform) ∧
      ∃ d ∈ s.dependences, d.kind = .flow ∧ d.source = skewWrite ∧ d.sink = skewRead ∧
        d.distance = .ofInts [1, 1] := by
  have haccesses : (ofEquations [(skewUpdate, skewSpace)]).run.value.map
      (fun s => s.accesses plane) = .ok [skewWrite, skewRead] := by
    decide +kernel
  have hwrite : skewWrite.IsUniform := by decide +kernel
  have hread : skewRead.IsUniform := by decide +kernel
  cases hs : (ofEquations [(skewUpdate, skewSpace)]).run.value with
  | error e =>
    rw [hs] at haccesses
    cases haccesses
  | ok s =>
    rw [hs] at haccesses
    have hmem : s.accesses plane = [skewWrite, skewRead] := Except.ok.inj haccesses
    have huniform : ∀ a ∈ s.accesses plane, a.IsUniform := by
      rw [hmem]
      simp [hwrite, hread]
    have hnodup : plane.dimensions.Nodup := by decide
    obtain ⟨d, hd, hkind, hsource, hsink, hdistance⟩ :=
      (dependences_exact _ s plane hs hnodup huniform).1 skewWrite (by simp [hmem])
        skewRead (by simp [hmem]) .flow rfl 0 (fun d => if d = .space "x" then 1 else -1)
        (by decide +kernel) (by decide +kernel)
    refine ⟨s, rfl, hnodup, huniform, d, hd, hkind, hsource, hsink, ?_⟩
    rw [hdistance]
    decide +kernel

end Skew

end Scope

end Stencil
