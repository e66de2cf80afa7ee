import Stencil.Proofs.Halo.Basic

/-!
This module contains when a halo scheme can be built. The dependences have to pass their check, the
labels of each array have to agree, and each array that is exchanged needs an index along each of
its local dimensions.
-/

namespace Stencil

theorem Analysis.exists_mapM {α β ε : Type} {f : α → ExceptT ε Checked β} {as : List α}
    (h : ∀ a ∈ as, ∃ b, (f a).run.value = .ok b) : ∃ bs, (as.mapM f).run.value = .ok bs := by
  induction as with
  | nil => exact ⟨[], rfl⟩
  | cons a as ih =>
    rw [List.forall_mem_cons] at h
    obtain ⟨b, hb⟩ := h.1
    obtain ⟨bs, hbs⟩ := ih h.2
    refine ⟨b :: bs, ?_⟩
    rw [value_mapM_eq_ok] at hbs ⊢
    exact .cons hb hbs

namespace Halo

variable {space : IterationSpace} {data : DataSpace} {scope : Scope} {f : GridFunction}

def lastAlong (space : IterationSpace) (scope : Scope) (f : GridFunction) (d : Dimension)
    (b : Bounds) : Int :=
  (lastIndex space ((Dependence.project f scope.dependences).any (·.isCarriedBy d)) b d).value

def IndexAlong (space : IterationSpace) (data : DataSpace) (scope : Scope) (f : GridFunction)
    (d : Dimension) (i : Expr) : Prop :=
  ∃ b, data.bounds? f d.root = some b ∧
    (localIndex space f d (lastAlong space scope f d b)).run.value = .ok i

section IndexAlong

variable {d : Dimension} {i j : Expr}

theorem IndexAlong.ne_none (h : IndexAlong space data scope f d i) :
    data.bounds? f d.root ≠ none := by
  obtain ⟨b, hb, -⟩ := h
  simp [hb]

theorem IndexAlong.unique (hi : IndexAlong space data scope f d i)
    (hj : IndexAlong space data scope f d j) : i = j := by
  obtain ⟨b, hb, hi⟩ := hi
  obtain ⟨b', hb', hj⟩ := hj
  rw [hb] at hb'
  obtain rfl := Option.some.inj hb'
  rw [hi] at hj
  exact Except.ok.inj hj

end IndexAlong

def addIndex (space : IterationSpace) (data : DataSpace) (scope : Scope) (f : GridFunction)
    (m : OrdMap Dimension Expr) (d : Dimension) : HaloAnalysis (OrdMap Dimension Expr) := do
  match data.bounds? f d.root with
  | none => return m
  | some bounds =>
    let last ← lastIndex space
      ((Dependence.project f scope.dependences).any (·.isCarriedBy d)) bounds d
    return m.insert d (← localIndex space f d last)

theorem localIndices_eq_foldlM (ds : List Dimension) :
    localIndices f ds space data scope = ds.foldlM (addIndex space data scope f) .empty := rfl

variable {m m' : OrdMap Dimension Expr} {d : Dimension}

theorem addIndex_eq_ok :
    (addIndex space data scope f m d).run.value = .ok m' ↔
      data.bounds? f d.root = none ∧ m' = m ∨
        ∃ i, IndexAlong space data scope f d i ∧ m' = m.insert d i := by
  unfold addIndex IndexAlong
  cases hbounds : data.bounds? f d.root with
  | none => simp [eq_comm]
  | some b =>
    have hlast : (liftM (lastIndex space
        ((Dependence.project f scope.dependences).any (·.isCarriedBy d)) b d) :
        HaloAnalysis Int).run.value = .ok (lastAlong space scope f d b) := rfl
    dsimp only
    rw [Analysis.value_bind_of_ok hlast, Analysis.value_bind_eq_ok]
    simp [eq_comm]

theorem foldlM_addIndex_eq_ok {ds : List Dimension}
    (h : (ds.foldlM (addIndex space data scope f) m).run.value = .ok m') {i : Expr} :
    m'.find? d = some i ↔ d ∈ ds ∧ IndexAlong space data scope f d i ∨
      (d ∉ ds ∨ data.bounds? f d.root = none) ∧ m.find? d = some i := by
  induction ds generalizing m with
  | nil =>
    obtain rfl := Except.ok.inj h
    simp
  | cons e ds ih =>
    rw [List.foldlM_cons, Analysis.value_bind_eq_ok] at h
    obtain ⟨m₁, hm₁, h⟩ := h
    rw [ih h, List.mem_cons]
    rcases addIndex_eq_ok.1 hm₁ with ⟨hnone, rfl⟩ | ⟨j, hj, rfl⟩
    · by_cases hd : d = e
      · subst hd
        have hnot : ¬ IndexAlong space data scope f d i := fun hi => hi.ne_none hnone
        simp [hnone, hnot]
      · simp [hd]
    · rw [OrdMap.find?_insert]
      by_cases hd : d = e
      · subst hd
        have hi : IndexAlong space data scope f d i ↔ j = i :=
          ⟨hj.unique, fun heq => heq ▸ hj⟩
        by_cases hmem : d ∈ ds <;> simp [hmem, hj.ne_none, hi]
      · simp [hd, Ne.symm hd]

theorem localIndices_eq_ok {ds : List Dimension}
    (h : (localIndices f ds space data scope).run.value = .ok m) {i : Expr} :
    m.find? d = some i ↔ d ∈ ds ∧ IndexAlong space data scope f d i := by
  rw [localIndices_eq_foldlM] at h
  rw [foldlM_addIndex_eq_ok h, OrdMap.find?_empty]
  simp

theorem exists_localIndices {ds : List Dimension} :
    (∃ m, (localIndices f ds space data scope).run.value = .ok m) ↔
      ∀ d ∈ ds, (data.bounds? f d.root).isSome = true →
        ∃ i, IndexAlong space data scope f d i := by
  have hfold (m : OrdMap Dimension Expr) :
      (∃ m', (ds.foldlM (addIndex space data scope f) m).run.value = .ok m') ↔
        ∀ d ∈ ds, (data.bounds? f d.root).isSome = true →
          ∃ i, IndexAlong space data scope f d i := by
    induction ds generalizing m with
    | nil => simp
    | cons d ds ih =>
      rw [List.foldlM_cons, List.forall_mem_cons]
      constructor
      · rintro ⟨m', h⟩
        rw [Analysis.value_bind_eq_ok] at h
        obtain ⟨m₁, hm₁, h⟩ := h
        refine ⟨?_, (ih m₁).1 ⟨m', h⟩⟩
        intro hsome
        rcases addIndex_eq_ok.1 hm₁ with ⟨hnone, -⟩ | ⟨i, hi, -⟩
        · rw [hnone] at hsome
          cases hsome
        · exact ⟨i, hi⟩
      · rintro ⟨hd, hds⟩
        have hstep : ∃ m₁, (addIndex space data scope f m d).run.value = .ok m₁ := by
          cases hbounds : data.bounds? f d.root with
          | none => exact ⟨m, addIndex_eq_ok.2 (.inl ⟨hbounds, rfl⟩)⟩
          | some b =>
            obtain ⟨i, hi⟩ := hd (by rw [hbounds]; rfl)
            exact ⟨_, addIndex_eq_ok.2 (.inr ⟨i, hi, rfl⟩)⟩
        obtain ⟨m₁, hm₁⟩ := hstep
        obtain ⟨m', h⟩ := (ih m₁).2 hds
        exact ⟨m', by rw [Analysis.value_bind_of_ok hm₁, h]⟩
  rw [localIndices_eq_foldlM]
  exact hfold .empty

end Halo

namespace HaloScheme

variable {space : IterationSpace} {data : DataSpace} {scope : Scope} {f : GridFunction}
variable {labels : OrdMap Dimension HaloLabel}

theorem exchange?_eq_ok_iff {o : Option HaloEntry} :
    (exchange? space data scope f labels).run.value = .ok o ↔
      labelledHalos data f labels = [] ∧ o = none ∨
      labelledHalos data f labels ≠ [] ∧ ∃ m,
        (Halo.localIndices f (localDimensions labels) space data scope).run.value = .ok m ∧
          o = some ⟨m, labelledHalos data f labels⟩ := by
  unfold exchange?
  have hstencil : (liftM (Halo.along (some data) f (labelled labels .stencil)) :
      HaloAnalysis (List Halo)).run.value =
      .ok (Halo.along (some data) f (labelled labels .stencil)).value := rfl
  have hfull : (liftM (Halo.along none f (labelled labels .full)) :
      HaloAnalysis (List Halo)).run.value =
      .ok (Halo.along none f (labelled labels .full)).value := rfl
  rw [Analysis.value_bind_of_ok hstencil, Analysis.value_bind_of_ok hfull]
  have hhalos : (Halo.along (some data) f (labelled labels .stencil)).value ++
    (Halo.along none f (labelled labels .full)).value = labelledHalos data f labels := rfl
  rw [hhalos]
  split
  · next hnil => simp [hnil, eq_comm (b := o)]
  · next hne =>
    have hne : labelledHalos data f labels ≠ [] := hne
    rw [Analysis.value_bind_eq_ok]
    simp [hne, eq_comm (b := o)]

theorem Built.localIndices_eq {eqs : List Equation} {hs : HaloScheme}
    {classification : Halo.Classification} (h : Built eqs space data hs scope classification)
    (hlabels : classification.find? f = some labels) {entry : HaloEntry}
    (hentry : hs.entries.find? f = some entry) :
    (Halo.localIndices f (localDimensions labels) space data scope).run.value =
      .ok entry.localIndices := by
  have hok := h.entry_eq f labels hlabels
  rw [hentry, exchange?_eq_ok_iff] at hok
  rcases hok with ⟨-, hnone⟩ | ⟨-, m, hm, hsome⟩
  · cases hnone
  · rw [Option.some.inj hsome]
    exact hm

theorem exists_ofEquations {eqs : List Equation} {classification : Halo.Classification}
    {diagnostics : List Diagnostic}
    (hscope : (Scope.ofEquations (eqs.map (·, space))).run.value = .ok scope)
    (hcheck : Halo.check scope = .ok ())
    (hclassify : (Halo.classify scope).run.value = .ok (classification, diagnostics))
    (hentry : ∀ f labels, classification.find? f = some labels →
      ∃ o, (exchange? space data scope f labels).run.value = .ok o) :
    ∃ hs, (ofEquations eqs space data).run.value = .ok hs := by
  have hscope' := Analysis.value_adapt_eq_ok (f := HaloError.access).2 hscope
  have hcheck' : (liftM (Halo.check scope) : HaloAnalysis Unit).run.value = .ok () := by
    rw [hcheck]
    rfl
  have hentries : ∃ os, (classification.entries.mapM fun e => do
      return (e.1, ← exchange? space data scope e.1 e.2) : HaloAnalysis _).run.value = .ok os := by
    apply Analysis.exists_mapM
    intro e he
    obtain ⟨o, ho⟩ := hentry e.1 e.2 (OrdMap.find?_eq_some_iff.2 he)
    exact ⟨(e.1, o), by rw [Analysis.value_bind_of_ok ho]; rfl⟩
  obtain ⟨os, hos⟩ := hentries
  unfold ofEquations
  rw [Analysis.value_bind_of_ok hscope', Analysis.value_bind_of_ok hcheck',
    Analysis.value_bind_of_ok hclassify]
  dsimp only
  rw [Analysis.value_bind_of_ok hos]
  exact ⟨_, rfl⟩

end HaloScheme

end Stencil
