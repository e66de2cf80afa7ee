import Stencil.Proofs.Expr.Closure
import Stencil.Proofs.Fusion.Destination
import Stencil.Proofs.Fusion.Preserve
import Stencil.Proofs.Scope.Range

/-!
This module contains that fusion is maximal. A cluster that was kept apart from all earlier ones is
still kept apart after these have grown, so fused clusters are not fused any further. To find this
out may need comparisons that were not made before, and these have to stay in range.
-/

namespace Stencil

namespace Cluster

/-- Clusters, of which the latest one comes first, that cannot be fused any more. -/
def Settled : List Cluster → Prop
  | [] => True
  | c :: rest =>
    (c.guards.isEmpty = true → ∃ atomics, (place c rest).run.value = .ok (.alone atomics)) ∧
      Settled rest

theorem Settled.of_append {cs cs' : List Cluster} (h : Settled (cs ++ cs')) : Settled cs' := by
  induction cs with
  | nil => exact h
  | cons c cs ih => exact ih h.2

section Growth

variable {eqs : List (Equation × IterationSpace)} {s : Scope} {c c' : Cluster}
variable {cs cs' : List Cluster}

theorem exists_alone_of_grows (hs : (Scope.ofEquations eqs).run.value = .ok s)
    (hc : Grows c c') (hcs : List.Forall₂ Grows cs cs') (hwithin : c'.executed ⊆ eqs)
    (hwithins : ∀ d ∈ cs', d.executed ⊆ eqs) {atomics : OrdSet Dimension}
    (hplace : (place c cs).run.value = .ok (.alone atomics)) :
    ∃ atomics, (place c' cs').run.value = .ok (.alone atomics) := by
  induction hcs generalizing atomics with
  | nil => exact ⟨.empty, rfl⟩
  | @cons d d' cs cs' hd _ ih =>
    rw [List.forall_mem_cons] at hwithins
    rw [place, Analysis.value_bind_eq_ok] at hplace
    obtain ⟨v, hv, hplace⟩ := hplace
    obtain ⟨t, ht⟩ := exists_jointScope_of_judge hv
    obtain ⟨t', ht'⟩ := exists_jointScope_of_subset hs hwithins.1 hwithin
    cases v with
    | fuse => cases hplace
    | stay _ =>
      obtain ⟨atomics', hstay⟩ := hd.exists_stay hc ht ht' hv
      rw [place, Analysis.value_bind_of_ok hstay]
      exact ⟨atomics', rfl⟩
    | pass =>
      dsimp only at hplace
      rw [Analysis.value_bind_eq_ok] at hplace
      obtain ⟨placement, hrest, hplace⟩ := hplace
      cases placement with
      | joined _ => cases hplace
      | alone _ =>
        have hne : (judge d' c').run.value ≠ .ok .fuse := by
          apply hd.judge_ne_fuse hc ht ht'
          simp [hv]
        rcases judge_cases ht' with ⟨-, hfuse⟩ | ⟨-, -, atomics', hstay⟩ | ⟨-, -, hpass⟩
        · exact absurd hfuse hne
        · rw [place, Analysis.value_bind_of_ok hstay]
          exact ⟨atomics', rfl⟩
        · obtain ⟨atomics', halone⟩ := ih hwithins.2 hrest
          rw [place, Analysis.value_bind_of_ok hpass]
          dsimp only
          rw [Analysis.value_bind_of_ok halone]
          exact ⟨atomics', rfl⟩

theorem Settled.grows (hs : (Scope.ofEquations eqs).run.value = .ok s) (h : Settled cs)
    (hcs : List.Forall₂ Grows cs cs') (hwithins : ∀ d ∈ cs', d.executed ⊆ eqs) : Settled cs' := by
  induction hcs with
  | nil => exact h
  | cons hc hcs ih =>
    rw [List.forall_mem_cons] at hwithins
    refine ⟨?_, ih h.2 hwithins.2⟩
    intro hguards
    rw [← hc.guards] at hguards
    obtain ⟨atomics, hplace⟩ := h.1 hguards
    exact exists_alone_of_grows hs hc hcs hwithins.1 hwithins.2 hplace

theorem forall₂_grows_refl (cs : List Cluster) : List.Forall₂ Grows cs cs :=
  List.forall₂_same.2 fun c _ => Grows.refl c

theorem grows_absorb_ofLowered (c : Cluster) (e : LoweredEquation) :
    Grows c (c.absorb (ofLowered e)) where
  equations := by
    rw [equations_absorb_ofLowered]
    split
    · exact List.prefix_refl _
    · exact List.prefix_append _ _
  iterationSpace := rfl
  guards := rfl
  atomics _ h := h

theorem executed_absorb_subset {e : LoweredEquation}
    (hfuse : (c.judge (ofLowered e)).run.value = .ok .fuse) (hc : c.executed ⊆ eqs)
    (he : (e.equation, e.iterationSpace) ∈ eqs) : (c.absorb (ofLowered e)).executed ⊆ eqs := by
  obtain ⟨_, -, hfusible⟩ := fusible_of_fuse hfuse
  rintro ⟨eq, space⟩ hmem
  obtain ⟨heq, rfl⟩ := mem_executed.1 hmem
  rw [equations_absorb_ofLowered] at heq
  have hcases : eq ∈ c.equations ∨ eq = e.equation := by
    split at heq
    · exact .inl heq
    · simpa using heq
  rcases hcases with heq | rfl
  · exact hc (mem_executed.2 ⟨heq, rfl⟩)
  · have hspace : (c.absorb (ofLowered e)).iterationSpace = e.iterationSpace :=
      hfusible.iterationSpace
    rw [hspace]
    exact he

theorem Settled.addLatest (hs : (Scope.ofEquations eqs).run.value = .ok s) (h : Settled cs)
    (hwithins : ∀ d ∈ cs, d.executed ⊆ eqs) {e : LoweredEquation}
    (he : (e.equation, e.iterationSpace) ∈ eqs)
    (hadd : (addLatest cs (ofLowered e)).run.value = .ok cs') :
    Settled cs' ∧ ∀ d ∈ cs', d.executed ⊆ eqs := by
  have hsingle (atomics : OrdSet Dimension) :
      executed { ofLowered e with atomics := atomics } ⊆ eqs := List.cons_subset.2 ⟨he, List.nil_subset _⟩
  unfold Cluster.addLatest at hadd
  split at hadd
  · rw [Analysis.value_bind_eq_ok] at hadd
    obtain ⟨placement, hplace, hadd⟩ := hadd
    cases placement with
    | joined cs'' =>
      obtain rfl := Except.ok.inj hadd
      obtain ⟨later, earlier, rest, rfl, rfl, -, hfuse⟩ := place_eq_joined hplace
      have hwithins' : ∀ d ∈ later ++ earlier.absorb (ofLowered e) :: rest, d.executed ⊆ eqs := by
        rw [List.forall_mem_append, List.forall_mem_cons] at hwithins ⊢
        exact ⟨hwithins.1, executed_absorb_subset hfuse hwithins.2.1 he, hwithins.2.2⟩
      refine ⟨h.grows hs ?_ hwithins', hwithins'⟩
      apply List.rel_append (forall₂_grows_refl later)
      exact .cons (grows_absorb_ofLowered earlier e) (forall₂_grows_refl rest)
    | alone atomics =>
      obtain rfl := Except.ok.inj hadd
      refine ⟨⟨fun _ => ?_, h⟩, List.forall_mem_cons.2 ⟨hsingle _, hwithins⟩⟩
      -- The verdict about a cluster does not depend on its own atomic dimensions.
      have hgrows : Grows (ofLowered e) { ofLowered e with
          atomics := (ofLowered e).atomics.union atomics } :=
        ⟨List.prefix_refl _, rfl, rfl, fun _ hd => absurd hd Bool.false_ne_true⟩
      exact exists_alone_of_grows hs hgrows (forall₂_grows_refl cs) (hsingle _) hwithins hplace
  · next hguards =>
    obtain rfl := Except.ok.inj hadd
    exact ⟨⟨fun h => absurd h hguards, h⟩, List.forall_mem_cons.2 ⟨hsingle _, hwithins⟩⟩

theorem Settled.foldlM (hs : (Scope.ofEquations eqs).run.value = .ok s) (h : Settled cs)
    (hwithins : ∀ d ∈ cs, d.executed ⊆ eqs) {es : List LoweredEquation}
    (hes : ∀ e ∈ es, (e.equation, e.iterationSpace) ∈ eqs)
    (hfold : ((es.map ofLowered).foldlM Cluster.addLatest cs).run.value = .ok cs') :
    Settled cs' ∧ ∀ d ∈ cs', d.executed ⊆ eqs := by
  induction es generalizing cs with
  | nil =>
    obtain rfl := Except.ok.inj hfold
    exact ⟨h, hwithins⟩
  | cons e es ih =>
    rw [List.map_cons, List.foldlM_cons, Analysis.value_bind_eq_ok] at hfold
    obtain ⟨cs'', hadd, hfold⟩ := hfold
    rw [List.forall_mem_cons] at hes
    obtain ⟨hsettled, hwithins'⟩ := h.addLatest hs hwithins hes.1 hadd
    exact ih hsettled hwithins' hes.2 hfold

end Growth

section Range

variable {c d : Cluster} {cs : List Cluster} {s : Scope}

theorem fits_judge (hs : (c.jointScope d).run.value = .ok s)
    (hfits : (c.jointScope d).run.fits = true)
    (hcarried : ∀ d ∈ s.anti, d.isCarried.fits = true) : (judge c d).run.fits = true := by
  unfold judge
  rw [Analysis.fits_bind_of_ok hs, hfits, Bool.true_and]
  apply Analysis.fits_bind
  · rw [Analysis.fits_lift, Dependence.carried, Checked.fits_filterM]
    exact fun d hd => hcarried d (mem_crossing.1 hd).1
  · intro anti _
    dsimp only
    split
    · rfl
    · split
      · rfl
      · split <;> rfl

theorem fits_place (h : ∀ d ∈ cs, (judge d c).run.fits = true) :
    (place c cs).run.fits = true := by
  induction cs with
  | nil => rfl
  | cons d cs ih =>
    rw [List.forall_mem_cons] at h
    rw [place]
    apply Analysis.fits_bind h.1
    intro verdict _
    cases verdict with
    | fuse => rfl
    | stay _ => rfl
    | pass =>
      apply Analysis.fits_bind (ih h.2)
      intro placement _
      cases placement <;> rfl

theorem fits_addLatest (h : ∀ d ∈ cs, (judge d c).run.fits = true) :
    (addLatest cs c).run.fits = true := by
  unfold addLatest
  split
  · apply Analysis.fits_bind (fits_place h)
    intro placement _
    cases placement <;> rfl
  · rfl

theorem fits_judge_of_subset {eqs : List (Equation × IterationSpace)}
    (hs : (Scope.ofEquations eqs).run.value = .ok s)
    (hrefs : ∀ e ∈ eqs, ∀ r ∈ e.1.references, r.WellFormed)
    (hfits : (Scope.ofEquations eqs).run.fits = true)
    (hcarried : ∀ d ∈ s.anti, d.isCarried.fits = true) (hc : c.executed ⊆ eqs)
    (hd : d.executed ⊆ eqs) : (judge c d).run.fits = true := by
  obtain ⟨s', hs'⟩ := exists_jointScope_of_subset hs hc hd
  have hpart : ∀ e ∈ c.executed ++ d.executed, e ∈ eqs := List.append_subset.2 ⟨hc, hd⟩
  apply fits_judge hs' (Scope.fits_ofEquations_of_subset hs hs' hpart hrefs hfits)
  exact fun d hd => Scope.fits_isCarried_of_subset hs hs' hpart hrefs hcarried hd

end Range

structure Raised (c c' : Cluster) : Prop where
  equations : c'.equations = c.equations
  iterationSpace : c'.iterationSpace = c.iterationSpace
  dataSpace : c'.dataSpace = c.dataSpace
  guards : c'.guards = c.guards
  atomics : ∀ d, c.atomics.contains d = true → c'.atomics.contains d = true

namespace Raised

variable {c c' : Cluster}

theorem grows (h : Raised c c') : Grows c c' where
  equations := h.equations ▸ List.prefix_refl _
  iterationSpace := h.iterationSpace.symm
  guards := h.guards.symm
  atomics := h.atomics

theorem executed_eq (h : Raised c c') : c'.executed = c.executed := by
  unfold executed
  rw [h.equations, h.iterationSpace]

theorem union (c : Cluster) (atomics : OrdSet Dimension) :
    Raised c { c with atomics := c.atomics.union atomics } where
  equations := rfl
  iterationSpace := rfl
  dataSpace := rfl
  guards := rfl
  atomics d hd := by
    show OrdMap.contains (OrdSet.union c.atomics atomics) d = true
    unfold OrdSet.union
    rw [OrdSet.contains_foldl_insert, hd, Bool.true_or]

theorem refl (c : Cluster) : Raised c c := ⟨rfl, rfl, rfl, rfl, fun _ h => h⟩

variable {eqs : List (Equation × IterationSpace)} {s : Scope}

theorem exists_addLatest {c : Cluster} {cs cs' : List Cluster}
    (hs : (Scope.ofEquations eqs).run.value = .ok s) (hsettled : Settled (c :: cs))
    (hcs : List.Forall₂ Raised cs cs') (hc : c.executed ⊆ eqs)
    (hwithins : ∀ d ∈ cs', d.executed ⊆ eqs) :
    ∃ c', (addLatest cs' c).run.value = .ok (c' :: cs') ∧ Raised c c' := by
  unfold addLatest
  split
  · next hguards =>
    obtain ⟨atomics, hplace⟩ := hsettled.1 hguards
    obtain ⟨atomics', hplace'⟩ := exists_alone_of_grows hs (Grows.refl c)
      (hcs.imp fun _ _ h => h.grows) hc hwithins hplace
    rw [Analysis.value_bind_of_ok hplace']
    exact ⟨_, rfl, union c atomics'⟩
  · exact ⟨c, rfl, refl c⟩

theorem foldlM {cs todo built built' : List Cluster}
    (hs : (Scope.ofEquations eqs).run.value = .ok s) (hsettled : Settled cs)
    (hwithins : ∀ d ∈ cs, d.executed ⊆ eqs) (hcs : todo.reverse ++ built = cs)
    (hbuilt : List.Forall₂ Raised built built') :
    ∃ cs', (todo.foldlM addLatest built').run.value = .ok cs' ∧ List.Forall₂ Raised cs cs' ∧
      ((∀ c d : Cluster, c.executed ⊆ eqs → d.executed ⊆ eqs → (judge c d).run.fits = true) →
        (todo.foldlM addLatest built').run.fits = true) := by
  induction todo generalizing built built' with
  | nil =>
    obtain rfl : built = cs := hcs
    exact ⟨built', rfl, hbuilt, fun _ => rfl⟩
  | cons c todo ih =>
    rw [List.reverse_cons, ← List.append_cons] at hcs
    have hwithins' : c.executed ⊆ eqs ∧ ∀ d ∈ built', d.executed ⊆ eqs := by
      rw [← hcs, List.forall_mem_append, List.forall_mem_cons] at hwithins
      refine ⟨hwithins.2.1, fun d hd => ?_⟩
      obtain ⟨d₀, hd₀, hraised⟩ := exists_mem_left hbuilt hd
      rw [hraised.executed_eq]
      exact hwithins.2.2 d₀ hd₀
    have hrest : Settled (c :: built) := (hcs.symm ▸ hsettled).of_append
    obtain ⟨c', hadd, hraised⟩ := exists_addLatest hs hrest hbuilt hwithins'.1 hwithins'.2
    obtain ⟨cs', hfold, hcs', hfits⟩ := ih hcs (.cons hraised hbuilt)
    refine ⟨cs', ?_, hcs', fun hjudge => ?_⟩
    · rw [List.foldlM_cons, Analysis.value_bind_of_ok hadd]
      exact hfold
    · rw [List.foldlM_cons, Analysis.fits_bind_of_ok hadd, hfits hjudge, Bool.and_true]
      exact fits_addLatest fun d hd => hjudge d c (hwithins'.2 d hd) hwithins'.1

end Raised

/--
Fused clusters stay as they are when they are fused again, with more atomic dimensions. This stays
in range if the scope of the whole program does, and so does the comparison of its dependences from
a read to a write with zero.
-/
theorem fuseAll_of_fused {es : List LoweredEquation} {s : Scope} {clusters : List Cluster}
    (hs : (Scope.ofLowered es).run.value = .ok s)
    (h : (fuseAll (es.map ofLowered)).run.value = .ok clusters) :
    ∃ clusters', (fuseAll clusters).run.value = .ok clusters' ∧
      List.Forall₂ Raised clusters clusters' ∧
      ((∀ e ∈ es, ∀ r ∈ e.equation.references, r.WellFormed) →
        (Scope.ofLowered es).run.fits = true → (∀ d ∈ s.anti, d.isCarried.fits = true) →
          (fuseAll clusters).run.fits = true) := by
  unfold fuseAll at h
  rw [Analysis.value_bind_eq_ok] at h
  obtain ⟨cs, hfold, heq⟩ := h
  obtain rfl := Except.ok.inj heq
  have hes : ∀ e ∈ es, (e.equation, e.iterationSpace) ∈
      es.map fun e => (e.equation, e.iterationSpace) := fun e he => List.mem_map_of_mem he
  have hnil : Settled [] := trivial
  obtain ⟨hsettled, hwithins⟩ := hnil.foldlM hs (List.forall_mem_nil _) hes hfold
  have hcs : cs.reverse.reverse ++ [] = cs := by simp
  obtain ⟨cs', hfold', hraised, hrange⟩ := Raised.foldlM hs hsettled hwithins hcs .nil
  refine ⟨cs'.reverse, ?_, List.forall₂_reverse_iff.2 hraised, fun hrefs hfits hcarried => ?_⟩
  · unfold fuseAll
    rw [Analysis.value_bind_of_ok hfold']
    rfl
  · have hrefs' : ∀ e ∈ es.map fun e => (e.equation, e.iterationSpace),
        ∀ r ∈ e.1.references, r.WellFormed := List.forall_mem_map.2 hrefs
    unfold fuseAll
    apply Analysis.fits_bind
    · exact hrange fun c d hc hd => fits_judge_of_subset hs hrefs' hfits hcarried hc hd
    · exact fun _ _ => rfl

section KeptApart

/-- `b[x] = a[x + 1]; a[x] = 0; c[x] = b[x]`. -/
def keptApart : List Equation :=
  [⟨.access (.line "b") [.sym "x"], .access (.line "a") [.add [.num 1, .sym "x"]], false⟩,
    ⟨.access (.line "a") [.sym "x"], .num 0, false⟩,
    ⟨.access (.line "c") [.sym "x"], .access (.line "b") [.sym "x"], false⟩]

theorem wellFormed_keptApart : ∀ eq ∈ keptApart, ∀ r ∈ eq.references, r.WellFormed := by
  have hnext : (Expr.add [.num 1, .sym "x"]).Canonical :=
    .add (Expr.canonical_pair (.num 1) (.sym "x")) (Expr.arguments_num_sym rfl rfl (by simp))
  have hline (name : String) {i : Expr} (hi : i.Canonical) :
      Reference.WellFormed ⟨.line name, [i]⟩ := ⟨rfl, by simpa using hi⟩
  simp only [keptApart, Equation.references, Equation.reads, Equation.write?, Expr.toReference?,
    Expr.references, Expr.referencesOfList, Option.toList_some, List.append_nil, List.cons_append,
    List.nil_append, List.forall_mem_cons, List.not_mem_nil, false_imp_iff, implies_true, and_true]
  exact ⟨⟨hline "b" (.sym "x"), hline "a" hnext⟩, hline "a" (.sym "x"), hline "c" (.sym "x"),
    hline "b" (.sym "x")⟩

/-- The write of `a` does not join the read, and it gets an atomic dimension. -/
theorem fuseAll_of_fused_keptApart :
    ∃ s clusters clusters',
      (Scope.ofLowered (Equation.lowerAll keptApart .empty).value).run.value = .ok s ∧
      (fuseAll ((Equation.lowerAll keptApart .empty).value.map ofLowered)).run.value =
        .ok clusters ∧
      clusters.map (fun c => (c.equations.length, c.atomics.toList)) =
        [(1, []), (2, [.space "x"])] ∧
      (fuseAll clusters).run.value = .ok clusters' ∧ List.Forall₂ Raised clusters clusters' ∧
      (fuseAll clusters).run.fits = true := by
  have hscope : (Scope.ofLowered (Equation.lowerAll keptApart .empty).value).run.value.map
      (fun s => (s.dependences.length, decide (∀ d ∈ s.anti, d.isCarried.fits = true))) =
        .ok (2, true) := by
    decide +kernel
  have hresult : (fuseAll ((Equation.lowerAll keptApart .empty).value.map ofLowered)).run.value.map
      (fun cs => cs.map fun c => (c.equations.length, c.atomics.toList)) =
        .ok [(1, []), (2, [.space "x"])] := by
    decide +kernel
  have hrefs : ∀ e ∈ (Equation.lowerAll keptApart .empty).value,
      ∀ r ∈ e.equation.references, r.WellFormed := by
    intro e he
    have hmem : e.equation ∈ keptApart := by
      rw [← Equation.map_equation_lowerAll keptApart .empty]
      exact List.mem_map_of_mem he
    exact wellFormed_keptApart e.equation hmem
  cases hs : (Scope.ofLowered (Equation.lowerAll keptApart .empty).value).run.value with
  | error e =>
    rw [hs] at hscope
    cases hscope
  | ok s =>
    rw [hs] at hscope
    have hcarried := of_decide_eq_true (Prod.mk.inj (Except.ok.inj hscope)).2
    cases hfuse : (fuseAll ((Equation.lowerAll keptApart .empty).value.map ofLowered)).run.value with
    | error e =>
      rw [hfuse] at hresult
      cases hresult
    | ok clusters =>
      rw [hfuse] at hresult
      obtain ⟨clusters', hagain, hraised, hfits⟩ := fuseAll_of_fused hs hfuse
      exact ⟨s, clusters, clusters', rfl, rfl, Except.ok.inj hresult, hagain, hraised,
        hfits hrefs (by decide +kernel) hcarried⟩

end KeptApart

section Steep

/-- `a[x] = u[2 ^ 62 x + f(x)]; c[x, y] = 1; u[-2 ^ 62 x] = b[x, y]`. -/
def steep : List Equation :=
  let plane (name : String) : Expr := .access
    (.declare name .dense [.space "x", .space "y"] [.num 8, .num 8]) [.sym "x", .sym "y"]
  [⟨.access (.line "a") [.sym "x"],
      .access (.line "u") [.add [.mul [.num (2 ^ 62), .sym "x"], .call "f" [.sym "x"]]], false⟩,
    ⟨plane "c", .num 1, false⟩,
    ⟨.access (.line "u") [.mul [.num (-2 ^ 62), .sym "x"]], plane "b", false⟩]

/--
The write of `u` joins the write of `c`, and is not compared with the read of `u`. The second time
it is, as a part of its cluster, and `2 ^ 63` is out of range.
-/
theorem not_fits_fuseAll_steep :
    (Scope.ofLowered (Equation.lowerAll steep .empty).value).run.fits = true ∧
    ∃ clusters,
      fuseAll ((Equation.lowerAll steep .empty).value.map ofLowered) = pure clusters ∧
      clusters.map (·.equations.length) = [1, 2] ∧ (fuseAll clusters).run.fits = false := by
  have hresult : (fuseAll ((Equation.lowerAll steep .empty).value.map ofLowered)).run.value.map
      (·.map (·.equations.length)) = .ok [1, 2] := by
    decide +kernel
  have hfits : (fuseAll ((Equation.lowerAll steep .empty).value.map ofLowered)).run.fits = true := by
    decide +kernel
  have hagain : (fuseAll ((Equation.lowerAll steep .empty).value.map ofLowered) >>=
      fuseAll).run.fits = false := by
    decide +kernel
  refine ⟨by decide +kernel, ?_⟩
  cases hfuse : (fuseAll ((Equation.lowerAll steep .empty).value.map ofLowered)).run.value with
  | error e =>
    rw [hfuse] at hresult
    cases hresult
  | ok clusters =>
    rw [hfuse] at hresult
    rw [Analysis.fits_bind_of_ok hfuse, hfits, Bool.true_and] at hagain
    exact ⟨clusters, Checked.eq_pure_iff.2 ⟨hfits, hfuse⟩, Except.ok.inj hresult, hagain⟩

end Steep

end Cluster

end Stencil
