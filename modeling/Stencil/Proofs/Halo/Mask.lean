import Stencil.Proofs.Halo.Amounts
import Stencil.Proofs.Halo.Local

/-!
This module contains what the entries and the masks of a halo scheme consist of. The halos of an
array are along dimensions of different labels than its local indices, so a mask tells exactly which
halos there are.
-/

namespace Stencil

namespace Halo

def place (h : Halo) : Dimension × Side := (h.dimension, h.side)

theorem nodup_places_ofWidths (d : Dimension) (left right : Int) :
    ((ofWidths d left right).map place).Nodup := by
  unfold ofWidths
  by_cases hleft : 0 < left <;> by_cases hright : 0 < right <;> simp [hleft, hright, place]

theorem mem_along {space : Option DataSpace} {f : GridFunction} {ds : List Dimension} {h : Halo} :
    h ∈ (along space f ds).value ↔ h.dimension ∈ ds ∧
      h ∈ ofWidths h.dimension (reach space f h.dimension).value.1
        (reach space f h.dimension).value.2 := by
  rw [value_along, List.mem_flatMap]
  constructor
  · rintro ⟨d, hd, hmem⟩
    obtain rfl := dimension_of_mem_ofWidths hmem
    exact ⟨hd, hmem⟩
  · rintro ⟨hd, hmem⟩
    exact ⟨h.dimension, hd, hmem⟩

theorem nodup_places_along {ds : List Dimension} (hnodup : ds.Nodup) (space : Option DataSpace)
    (f : GridFunction) : ((along space f ds).value.map place).Nodup := by
  rw [value_along, List.map_flatMap, List.nodup_flatMap]
  constructor
  · intro d _
    exact nodup_places_ofWidths ..
  · apply hnodup.imp
    intro d d' hne s hs hs'
    obtain ⟨h, hh, rfl⟩ := List.mem_map.1 hs
    obtain ⟨h', hh', heq⟩ := List.mem_map.1 hs'
    rw [← dimension_of_mem_ofWidths hh, ← dimension_of_mem_ofWidths hh'] at hne
    exact hne (Prod.mk.inj heq).1.symm

end Halo

namespace HaloScheme

variable {data : DataSpace} {f : GridFunction} {labels : OrdMap Dimension HaloLabel}

theorem label_of_mem_labelledHalos {h : Halo} (hmem : h ∈ labelledHalos data f labels) :
    (labels.find? h.dimension = some .stencil ∨ labels.find? h.dimension = some .full) ∧
      0 < h.amount := by
  have hpositive {left right : Int} (hh : h ∈ Halo.ofWidths h.dimension left right) :
      0 < h.amount := by
    rcases Halo.mem_ofWidths.1 hh with ⟨hpos, heq⟩ | ⟨hpos, heq⟩ <;> rwa [heq]
  rcases List.mem_append.1 hmem with hmem | hmem
  · obtain ⟨hd, hh⟩ := Halo.mem_along.1 hmem
    exact ⟨.inl (mem_labelled.1 hd), hpositive hh⟩
  · obtain ⟨hd, hh⟩ := Halo.mem_along.1 hmem
    exact ⟨.inr (mem_labelled.1 hd), hpositive hh⟩

theorem nodup_places_labelledHalos (data : DataSpace) (f : GridFunction)
    (labels : OrdMap Dimension HaloLabel) :
    ((labelledHalos data f labels).map Halo.place).Nodup := by
  unfold labelledHalos
  rw [List.map_append, List.nodup_append']
  refine ⟨Halo.nodup_places_along (nodup_labelled labels .stencil) _ f,
    Halo.nodup_places_along (nodup_labelled labels .full) _ f, ?_⟩
  -- A dimension has one label, so it is not exchanged both ways.
  intro s hs hs'
  obtain ⟨h, hh, rfl⟩ := List.mem_map.1 hs
  obtain ⟨h', hh', heq⟩ := List.mem_map.1 hs'
  have hstencil := mem_labelled.1 (Halo.mem_along.1 hh).1
  have hfull := mem_labelled.1 (Halo.mem_along.1 hh').1
  rw [(Prod.mk.inj heq).1, hstencil] at hfull
  cases hfull

section Built

variable {eqs : List Equation} {space : IterationSpace} {hs : HaloScheme} {scope : Scope}
variable {classification : Halo.Classification}

theorem Built.exists_labels (h : Built eqs space data hs scope classification) {entry : HaloEntry}
    (hentry : hs.entries.find? f = some entry) :
    ∃ labels, classification.find? f = some labels ∧ entry.halos = labelledHalos data f labels ∧
      entry.halos ≠ [] ∧
      (Halo.localIndices f (localDimensions labels) space data scope).run.value =
        .ok entry.localIndices := by
  cases hlabels : classification.find? f with
  | none =>
    rw [h.absent f hlabels] at hentry
    cases hentry
  | some labels =>
    obtain ⟨hhalos, hne⟩ := h.halos_eq hlabels
    have hsame : hs.halos f = entry.halos := by rw [halos, hentry]; rfl
    rw [hsame] at hhalos hne
    exact ⟨labels, rfl, hhalos, hne.1 (by rw [hentry]; rfl), h.localIndices_eq hlabels hentry⟩

theorem label_of_contains {m : OrdMap Dimension Expr}
    (hm : (Halo.localIndices f (localDimensions labels) space data scope).run.value = .ok m)
    {d : Dimension} (hd : m.contains d = true) : labels.find? d = some .none := by
  obtain ⟨i, hi⟩ := Option.isSome_iff_exists.1 hd
  obtain ⟨hlocal, -⟩ := (Halo.localIndices_eq_ok hm).1 hi
  exact mem_labelled.1 (List.mem_of_mem_filter hlocal)

end Built

end HaloScheme

/--
A pair of a dimension and a side stands before another one: by the order of the dimensions of the
array, and left before right.
-/
def HaloMask.Precedes (f : GridFunction) (a b : Dimension × Side) : Prop :=
  f.dimensions.idxOf a.1 < f.dimensions.idxOf b.1 ∨ a.1 = b.1 ∧ a.2 = .left ∧ b.2 = .right

namespace HaloEntry

/-- Something is exchanged, on each side of a dimension at most once and not along local ones. -/
structure Proper (e : HaloEntry) : Prop where
  nonempty : e.halos ≠ []
  positive : ∀ h ∈ e.halos, 0 < h.amount
  nodup : (e.halos.map Halo.place).Nodup
  exchanged : ∀ h ∈ e.halos, e.localIndices.contains h.dimension = false

/--
A mask has a value for both sides of the dimensions without a local index and for nothing else. It
is set where there is a halo.
-/
structure Described (f : GridFunction) (e : HaloEntry) (mask : HaloMask) : Prop where
  mem_keys : ∀ d side, (d, side) ∈ mask.map (·.1) ↔
    d ∈ f.dimensions ∧ e.localIndices.contains d = false
  mem_true : ∀ d side, ((d, side), true) ∈ mask ↔ (d, side) ∈ e.halos.map Halo.place
  sorted : f.dimensions.Nodup → (mask.map (·.1)).Pairwise (HaloMask.Precedes f)

variable {f : GridFunction} {e : HaloEntry}

theorem mem_mask {d : Dimension} {side : Side} {b : Bool} :
    ((d, side), b) ∈ e.mask f ↔ (d ∈ f.dimensions ∧ e.localIndices.contains d = false) ∧
      b = e.halos.any fun h => h.dimension == d && h.side == side := by
  cases side <;> simp [mask]

theorem keys_mask (f : GridFunction) (e : HaloEntry) :
    (e.mask f).map (·.1) = (f.dimensions.filter fun d => !e.localIndices.contains d).flatMap
      fun d => [(d, Side.left), (d, Side.right)] := by
  unfold mask
  rw [List.map_flatMap]
  rfl

theorem pairwise_keys_mask (hnodup : f.dimensions.Nodup) (e : HaloEntry) :
    ((e.mask f).map (·.1)).Pairwise (HaloMask.Precedes f) := by
  have hordered : f.dimensions.Pairwise fun d d' =>
      f.dimensions.idxOf d < f.dimensions.idxOf d' := by
    rw [List.pairwise_iff_getElem]
    intro i j hi hj hlt
    rwa [hnodup.idxOf_getElem, hnodup.idxOf_getElem]
  rw [keys_mask, List.pairwise_flatMap]
  constructor
  · intro d _
    simp [HaloMask.Precedes]
  · apply (hordered.filter _).imp
    intro d d' hlt a ha b hb
    left
    have hfirst : a.1 = d := by grind
    have hsecond : b.1 = d' := by grind
    rwa [hfirst, hsecond]

theorem described_mask (hhalos : ∀ h ∈ e.halos, h.dimension ∈ f.dimensions)
    (hproper : e.Proper) : e.Described f (e.mask f) where
  mem_keys := by
    intro d side
    rw [keys_mask]
    cases side <;> simp
  mem_true := by
    intro d side
    rw [mem_mask, eq_comm (a := true), List.any_eq_true]
    simp only [Bool.and_eq_true, beq_iff_eq, List.mem_map, Halo.place, Prod.mk.injEq]
    constructor
    · rintro ⟨-, h⟩
      exact h
    · rintro ⟨h, hh, rfl, rfl⟩
      exact ⟨⟨hhalos h hh, hproper.exchanged h hh⟩, h, hh, rfl, rfl⟩
  sorted := fun hnodup => pairwise_keys_mask hnodup e

end HaloEntry

namespace HaloScheme

theorem find?_masks (hs : HaloScheme) (f : GridFunction) :
    hs.masks.find? f = (hs.entries.find? f).map fun e => e.mask f := by
  unfold masks
  rw [OrdMap.find?_filterMap]
  cases hs.entries.find? f <;> rfl

theorem keys_masks (hs : HaloScheme) : hs.masks.keys = hs.functions := by
  unfold masks functions OrdMap.keys OrdMap.filterMap
  simp

theorem Built.proper {eqs : List Equation} {space : IterationSpace} {hs : HaloScheme}
    {scope : Scope} {classification : Halo.Classification}
    (h : Built eqs space data hs scope classification) {entry : HaloEntry}
    (hentry : hs.entries.find? f = some entry) :
    entry.Proper ∧ ∀ h ∈ entry.halos, h.dimension ∈ f.dimensions := by
  obtain ⟨labels, hlabels, hhalos, hne, hlocal⟩ := h.exists_labels hentry
  have hmem {halo : Halo} (hhalo : halo ∈ entry.halos) :=
    label_of_mem_labelledHalos (hhalos ▸ hhalo)
  refine ⟨⟨hne, fun halo hhalo => (hmem hhalo).2, ?_, ?_⟩, ?_⟩
  · rw [hhalos]
    exact nodup_places_labelledHalos data f labels
  · intro halo hhalo
    rw [← Bool.not_eq_true]
    intro hcontains
    have hnone := label_of_contains hlocal hcontains
    rcases (hmem hhalo).1 with hlabel | hlabel <;> rw [hnone] at hlabel <;> cases hlabel
  · intro halo hhalo
    obtain ⟨l, hl⟩ : ∃ l, labels.find? halo.dimension = some l :=
      (hmem hhalo).1.elim (fun hl => ⟨_, hl⟩) fun hl => ⟨_, hl⟩
    obtain ⟨-, -, -, -, -, hd⟩ := h.exists_reference hlabels hl
    exact hd

/--
The masks of a scheme describe its entries. Each entry is proper, there are masks for the arrays
that are exchanged and for no others, and a mask is set exactly where its array has a halo.
-/
theorem masks_exact (eqs : List Equation) (space : IterationSpace) (data : DataSpace)
    (hs : HaloScheme) (h : (ofEquations eqs space data).run.value = .ok hs) :
    hs.masks.keys = hs.functions ∧
      ∀ f entry, hs.entries.find? f = some entry →
        entry.Proper ∧ ∃ mask, hs.masks.find? f = some mask ∧ entry.Described f mask := by
  obtain ⟨scope, classification, hbuilt⟩ := exists_built h
  refine ⟨keys_masks hs, ?_⟩
  intro f entry hentry
  obtain ⟨hproper, hdimensions⟩ := hbuilt.proper hentry
  refine ⟨hproper, entry.mask f, ?_, HaloEntry.described_mask hdimensions hproper⟩
  rw [find?_masks, hentry]
  rfl

section Gather

def gatherGrid : Grid :=
  ⟨[8, 8], [.space "x", .space "y"], .ofList [.space "x", .space "y"], some (.time "t"), none⟩

def gatherField : GridFunction :=
  { FunctionDecl.declare "u" .dense [.time "t", .space "x", .space "y"]
      [.num 8, .num 8, .num 8] with
    halo := [(0, 0), (2, 2), (1, 0)]
    grid := some gatherGrid }

def gatherTarget : GridFunction := { gatherField with name := "v" }

/-- `v[t, x, y] = u[t, x + 1, m[x]]`, where the indices along `y` are only known when running. -/
def gather : Equation :=
  ⟨.access gatherTarget [.sym "t", .sym "x", .sym "y"],
    .access gatherField [.sym "t", .add [.num 1, .sym "x"],
      .access (.declare "m" .dense [.space "x"] [.num 8]) [.sym "x"]], false⟩

def gatherScheme : HaloAnalysis HaloScheme :=
  ofEquations [gather] (gather.iterationSpace .empty .empty) gather.dataSpace.value

def gatherMask : HaloMask :=
  [((.space "x", .left), false), ((.space "x", .right), true), ((.space "y", .left), true),
    ((.space "y", .right), false)]

theorem masks_exact_gather :
    ∃ hs entry, gatherScheme.run.value = .ok hs ∧ hs.entries.find? gatherField = some entry ∧
      gatherField.dimensions.Nodup ∧ entry.Proper ∧
      entry.localIndices.contains (.time "t") = true ∧
      hs.masks.find? gatherField = some gatherMask ∧ entry.Described gatherField gatherMask := by
  have hresult : gatherScheme.run.value.toOption.map (fun hs =>
      ((hs.entries.find? gatherField).map (·.localIndices.contains (.time "t")),
        hs.masks.find? gatherField)) =
      some (some true, some gatherMask) := by
    decide +kernel
  cases hs : gatherScheme.run.value with
  | error e =>
    rw [hs] at hresult
    cases hresult
  | ok scheme =>
    rw [hs] at hresult
    obtain ⟨hlocal, hmask⟩ := Prod.mk.inj (Option.some.inj hresult)
    obtain ⟨entry, hentry, hlocal⟩ := Option.map_eq_some_iff.1 hlocal
    obtain ⟨hproper, mask, hfind, hdescribed⟩ :=
      (masks_exact [gather] _ _ scheme hs).2 gatherField entry hentry
    rw [hmask] at hfind
    obtain rfl := Option.some.inj hfind
    exact ⟨scheme, entry, rfl, hentry, by decide, hproper, hlocal, hmask, hdescribed⟩

end Gather

end HaloScheme

end Stencil
