import Stencil.Proofs.Mirror.Halo

/-!
This module contains the analyses of whole programs that run forward and backward. If the indices
along `d` are reflected and the loop over `d` is turned around, then the dependences are the same,
and so are the halos along all other dimensions.
-/

namespace Stencil

def Dependence.outline (dep : Dependence) :
    DependenceKind × Nat × Nat × OffsetVector × Option Dimension :=
  (dep.kind, dep.source.timestamp, dep.sink.timestamp, dep.distance, dep.cause)

theorem Scope.Mirrors.perm_outline {d : Dimension} {s s' : Scope} (h : s.Mirrors d s') :
    (s'.dependences.map Dependence.outline).Perm (s.dependences.map Dependence.outline) := by
  have hperm := h.dependences.map Dependence.outline
  -- A reflection changes nothing but the accesses.
  rw [List.map_map] at hperm
  exact hperm

theorem FunctionDecl.value_offsetAlong_of_widths {f : GridFunction} {d : Dimension}
    (hhalo : f.haloAlong d = (0, 0)) (hpadding : widths f.padding (f.indexOf? d) = (0, 0)) :
    (f.offsetAlong d).value = (0, 0) := by
  have hwidths : widths f.halo (f.indexOf? d) = (0, 0) := hhalo
  unfold offsetAlong
  rw [hwidths, hpadding]
  rfl

namespace Equation

section Lowered

variable {d : Dimension} {eqs : List Equation} {directions directions' : OrdMap Dimension Direction}
variable (hroot : d.root = d) (hrefs : ∀ eq ∈ eqs, ∀ r ∈ eq.references, r.Mirrorable d)
variable (hturn : TurnsAround d directions directions')

include hroot hrefs

theorem exists_scope_mirror {space space' : Equation → IterationSpace}
    (hspace : ∀ eq eq', (space eq).Flipped d (space' eq')) {s : Scope}
    (hs : (Scope.ofEquations (eqs.map fun eq => (eq, space eq))).run.value = .ok s) :
    ∃ s', (Scope.ofEquations ((eqs.map (mirror d)).map fun eq => (eq, space' eq))).run.value =
      .ok s' ∧ s.Mirrors d s' := by
  refine Scope.exists_mirrors hroot ?_ ?_ hs
  · intro p hp
    obtain ⟨eq, heq, rfl⟩ := List.mem_map.1 hp
    exact hrefs eq heq
  · rw [List.map_map, List.forall₂_map_left_iff, List.forall₂_map_right_iff, List.forall₂_same]
    intro eq _
    exact ⟨rfl, hspace _ _⟩

include hturn

theorem exists_built_mirror (hne : eqs ≠ []) {hs : HaloScheme}
    (h : (HaloScheme.ofLowered (lowerAll eqs directions).value).run.value = .ok hs) :
    ∃ space space' data data' scope scope' classification hs',
      Reflected d space space' data data' scope scope' ∧
      (HaloScheme.ofLowered (lowerAll (eqs.map (mirror d)) directions').value).run.value = .ok hs' ∧
      HaloScheme.Built eqs space data hs scope classification ∧
      HaloScheme.Built (eqs.map (mirror d)) space' data' hs' scope' classification := by
  rw [ofLowered_lowerAll] at h
  obtain ⟨scope, classification, hbuilt⟩ := HaloScheme.exists_built h
  have hflipped : (jointSpace eqs directions).Flipped d
      (jointSpace (eqs.map (mirror d)) directions') :=
    flipped_jointSpace hturn hne (by simpa using hne)
  obtain ⟨scope', hscope', hmirrors⟩ :=
    exists_scope_mirror hroot hrefs (fun _ _ => hflipped) hbuilt.scope_eq
  have hreflected : Reflected d (jointSpace eqs directions)
      (jointSpace (eqs.map (mirror d)) directions') (jointData eqs)
      (jointData (eqs.map (mirror d))) scope scope' :=
    { root := hroot
      flipped := hflipped
      slots := fun _ _ _ => exists_mem_slotsOf_mirror hrefs hroot
      bounds := bounds?_jointData_mirror hrefs
      bounds_of_ne := fun f _ he => bounds?_jointData_mirror_of_ne hrefs hroot f he
      scope := hmirrors }
  obtain ⟨hs', hok, hbuilt'⟩ :=
    HaloScheme.exists_built_of_reflected hreflected hbuilt hrefs hscope'
  refine ⟨_, _, _, _, scope, scope', classification, hs', hreflected, ?_, hbuilt, hbuilt'⟩
  rw [ofLowered_lowerAll]
  exact hok

theorem exists_scope_lowerAll_mirror {s : Scope}
    (h : (Scope.ofLowered (lowerAll eqs directions).value).run.value = .ok s) :
    ∃ s', (Scope.ofLowered (lowerAll (eqs.map (mirror d)) directions').value).run.value = .ok s' ∧
      s.Mirrors d s' := by
  unfold Scope.ofLowered at h ⊢
  rw [value_lowerAll, List.map_map] at h ⊢
  exact exists_scope_mirror hroot hrefs
    (fun eq eq' => flipped_iterationSpace hturn eq eq' _ _) h

theorem exists_scheme_lowerAll_mirror {hs : HaloScheme}
    (h : (HaloScheme.ofLowered (lowerAll eqs directions).value).run.value = .ok hs) :
    ∃ hs', (HaloScheme.ofLowered (lowerAll (eqs.map (mirror d)) directions').value).run.value =
        .ok hs' ∧ hs'.functions = hs.functions ∧
      (∀ f, (hs'.halos f).filter (·.dimension ≠ d) = (hs.halos f).filter (·.dimension ≠ d)) ∧
      ∀ f entry l, hs.entries.find? f = some entry →
        entry.localIndices.find? d = some (Expr.shifted d l) →
        ∃ entry', hs'.entries.find? f = some entry' ∧ entry'.localIndices.find? d =
          some (Expr.shifted d (Word.toSigned (f.offsetAlong d).value.1 +
            Word.toSigned (f.offsetAlong d).value.2 - l)) := by
  by_cases hne : eqs = []
  · -- Without equations there is no loop that could be turned around.
    subst hne
    obtain rfl : ⟨.empty, []⟩ = hs := Except.ok.inj h
    refine ⟨_, h, rfl, fun _ => rfl, ?_⟩
    intro f entry l hentry
    cases hentry
  · obtain ⟨_, _, _, _, _, _, _, hs', hreflected, hok, hbuilt, hbuilt'⟩ :=
      exists_built_mirror hroot hrefs hturn hne h
    refine ⟨hs', hok, ?_, ?_, ?_⟩
    · apply OrdMap.keys_eq_of_isSome
      exact HaloScheme.isSome_entries_of_reflected hreflected hbuilt hbuilt' hrefs
    · exact HaloScheme.filter_halos_of_reflected hreflected hbuilt hbuilt' hrefs
    · intro f entry l hentry hl
      exact HaloScheme.exists_localIndex_of_reflected hreflected hbuilt hbuilt' hrefs hentry hl

end Lowered

/--
If the indices along `d` are reflected and the loop over `d` is turned around, then the dependences
stay as they are, up to the accesses at their ends. The halos are exchanged for the same arrays, along
all dimensions but `d` with the same widths, and the last index along `d` is reflected.
-/
theorem analyses_mirror (d : Dimension) (eqs : List Equation)
    (directions directions' : OrdMap Dimension Direction) (hroot : d.root = d)
    (hrefs : ∀ eq ∈ eqs, ∀ r ∈ eq.references, r.Mirrorable d)
    (hturn : TurnsAround d directions directions') :
    (∀ s, (Scope.ofLowered (lowerAll eqs directions).value).run.value = .ok s →
      ∃ s', (Scope.ofLowered (lowerAll (eqs.map (mirror d)) directions').value).run.value = .ok s' ∧
        (s'.dependences.map Dependence.outline).Perm (s.dependences.map Dependence.outline)) ∧
    ∀ hs, (HaloScheme.ofLowered (lowerAll eqs directions).value).run.value = .ok hs →
      ∃ hs', (HaloScheme.ofLowered (lowerAll (eqs.map (mirror d)) directions').value).run.value =
          .ok hs' ∧ hs'.functions = hs.functions ∧
        (∀ f, (hs'.halos f).filter (·.dimension ≠ d) = (hs.halos f).filter (·.dimension ≠ d)) ∧
        ∀ f entry l, f.haloAlong d = (0, 0) →
          FunctionDecl.widths f.padding (f.indexOf? d) = (0, 0) →
          hs.entries.find? f = some entry →
          entry.localIndices.find? d = some (Expr.shifted d l) →
          ∃ entry', hs'.entries.find? f = some entry' ∧
            entry'.localIndices.find? d = some (Expr.shifted d (-l)) := by
  constructor
  · intro s hs
    obtain ⟨s', hs', hmirrors⟩ := exists_scope_lowerAll_mirror hroot hrefs hturn hs
    exact ⟨s', hs', hmirrors.perm_outline⟩
  · intro hs hok
    obtain ⟨hs', hok', hfunctions, hhalos, hlocal⟩ :=
      exists_scheme_lowerAll_mirror hroot hrefs hturn hok
    refine ⟨hs', hok', hfunctions, hhalos, ?_⟩
    intro f entry l hhalo hpadding hentry hl
    have hreflected := hlocal f entry l hentry hl
    have hsum : Word.toSigned 0 + Word.toSigned 0 - l = -l := by
      have hzero : Word.toSigned 0 = 0 := rfl
      omega
    rw [FunctionDecl.value_offsetAlong_of_widths hhalo hpadding, hsum] at hreflected
    exact hreflected

section Leapfrog

def wave : GridFunction :=
  { FunctionDecl.declare "u" .dense [.time "t", .space "x"] [.num 8, .num 8] with
    halo := [(0, 0), (2, 2)]
    grid := some ⟨[8], [.space "x"], .ofList [.space "x"], some (.time "t"), none⟩ }

/-- `u[t + 2, x] = u[t, x - 1] + u[t + 1, x + 2]`. -/
def leapfrog : Equation :=
  ⟨.access wave [.add [.num 2, .sym "t"], .sym "x"],
    .add [.access wave [.sym "t", .add [.num (-1), .sym "x"]],
      .access wave [.add [.num 1, .sym "t"], .add [.num 2, .sym "x"]]], false⟩

def backward (d : Dimension) : OrdMap Dimension Direction := OrdMap.empty.insert d .backward

theorem analyses_mirror_leapfrog :
    TurnsAround (.time "t") .empty (backward (.time "t")) ∧
    (∀ r ∈ leapfrog.references, r.Mirrorable (.time "t")) ∧
    (∃ s s', (Scope.ofLowered (lowerAll [leapfrog] .empty).value).run.value = .ok s ∧
      s.dependences.map (·.cause) = [some (.time "t"), some (.time "t")] ∧
      (Scope.ofLowered (lowerAll [leapfrog.mirror (.time "t")]
        (backward (.time "t"))).value).run.value = .ok s' ∧
      (s'.dependences.map Dependence.outline).Perm (s.dependences.map Dependence.outline)) ∧
    ∃ hs' entry', (HaloScheme.ofLowered (lowerAll [leapfrog.mirror (.time "t")]
        (backward (.time "t"))).value).run.value = .ok hs' ∧
      (hs'.halos wave).filter (·.dimension ≠ .time "t") =
        [⟨.space "x", .left, 1⟩, ⟨.space "x", .right, 2⟩] ∧
      hs'.entries.find? wave = some entry' ∧
      entry'.localIndices.find? (.time "t") = some (Expr.shifted (.time "t") (-1)) := by
  have hturn : TurnsAround (.time "t") .empty (backward (.time "t")) :=
    turnsAround_insert rfl (by intro e he; cases he)
  have hrefs : ∀ r ∈ leapfrog.references, r.Mirrorable (.time "t") := by decide +kernel
  have hscope : (Scope.ofLowered (lowerAll [leapfrog] .empty).value).run.value.toOption.map
      (·.dependences.map (·.cause)) = some [some (.time "t"), some (.time "t")] := by
    decide +kernel
  have hscheme : (HaloScheme.ofLowered (lowerAll [leapfrog] .empty).value).run.value.toOption.map
      (fun hs => ((hs.halos wave).filter (·.dimension ≠ .time "t"),
        (hs.entries.find? wave).bind (·.localIndices.find? (.time "t")))) =
      some ([⟨.space "x", .left, 1⟩, ⟨.space "x", .right, 2⟩],
        some (Expr.shifted (.time "t") 1)) := by
    decide +kernel
  obtain ⟨hscopes, hschemes⟩ := analyses_mirror (.time "t") [leapfrog] .empty (backward (.time "t"))
    rfl (by simpa using hrefs) hturn
  refine ⟨hturn, hrefs, ?_, ?_⟩
  · cases hs : (Scope.ofLowered (lowerAll [leapfrog] .empty).value).run.value with
    | error e =>
      rw [hs] at hscope
      cases hscope
    | ok s =>
      rw [hs] at hscope
      obtain ⟨s', hs', hperm⟩ := hscopes s hs
      exact ⟨s, s', rfl, Option.some.inj hscope, hs', hperm⟩
  · cases hok : (HaloScheme.ofLowered (lowerAll [leapfrog] .empty).value).run.value with
    | error e =>
      rw [hok] at hscheme
      cases hscheme
    | ok hs =>
      rw [hok] at hscheme
      obtain ⟨hhalos, hlocal⟩ := Prod.mk.inj (Option.some.inj hscheme)
      obtain ⟨entry, hentry, hl⟩ := Option.bind_eq_some_iff.1 hlocal
      obtain ⟨hs', hok', -, hsame, hreflected⟩ := hschemes hs hok
      obtain ⟨entry', hentry', hl'⟩ := hreflected wave entry 1 rfl rfl hentry hl
      exact ⟨hs', entry', hok', (hsame wave).trans hhalos, hentry', hl'⟩

end Leapfrog

section Distant

def slab : GridFunction :=
  { FunctionDecl.declare "u" .dense [.time "t", .space "x"] [.num 8, .num 8] with
    grid := some ⟨[8], [.space "x"], .ofList [], some (.time "t"), none⟩ }

/-- `u[t, x + k] = u[t + 1, x - k]`. -/
def distant (k : Int) : Equation :=
  ⟨.access slab [.sym "t", Expr.shifted (.space "x") k],
    .access slab [.add [.num 1, .sym "t"], Expr.shifted (.space "x") (-k)], false⟩

def distantForward : Checked (List LoweredEquation) := lowerAll [distant (2 ^ 62)] .empty

def distantBackward : Checked (List LoweredEquation) :=
  lowerAll [(distant (2 ^ 62)).mirror (.space "x")] (backward (.space "x"))

/--
The indices along `x` differ by the least integer. After a reflection they differ by its opposite,
which does not fit, so the test whether both accesses come at the same point has no answer.
-/
theorem not_fits_mirror_distant :
    TurnsAround (.space "x") .empty (backward (.space "x")) ∧
    (∀ r ∈ (distant (2 ^ 62)).references, r.Mirrorable (.space "x")) ∧
    (distantForward.fits = true ∧
      ((Scope.ofLowered distantForward.value).run.toOption.bind (·.toOption)).map
        (·.dependences.map (·.cause)) = some [some (.time "t")] ∧
      (HaloScheme.ofLowered distantForward.value).run.toOption.bind (·.toOption) =
        some ⟨.empty, []⟩) ∧
    distantBackward.fits = true ∧
      (Scope.ofLowered distantBackward.value).run.toOption.isNone = true ∧
      (HaloScheme.ofLowered distantBackward.value).run.toOption.isNone = true := by
  refine ⟨turnsAround_insert rfl ?_, ?_, ?_, ?_⟩
  · intro e he
    cases he
  · decide +kernel
  · decide +kernel
  · decide +kernel

end Distant

end Equation

end Stencil
