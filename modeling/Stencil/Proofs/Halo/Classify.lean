import Stencil.Proofs.Halo.Basic
import Stencil.Proofs.Uniform

/-!
This module contains what the labels of an array mean: along each dimension all reads ask for the
same exchange, and the label is what they ask for.
-/

namespace Stencil

namespace Halo

def requests (grid : Grid) (reads : List TimedAccess) (d : Dimension) : List HaloLabel :=
  (reads.flatMap fun r => r.dimensions.map fun e => (r, e)).filterMap fun e =>
    if e.2 = d then (label? grid e.1 e.2).value else none

theorem mem_requests {grid : Grid} {reads : List TimedAccess} {d : Dimension} {l : HaloLabel} :
    l ∈ requests grid reads d ↔
      ∃ r ∈ reads, d ∈ r.dimensions ∧ (label? grid r d).value = some l := by
  unfold requests
  simp only [List.mem_filterMap, List.mem_flatMap, List.mem_map]
  constructor
  · rintro ⟨_, ⟨r, hr, e, he, rfl⟩, hl⟩
    split at hl
    · next heq =>
      obtain rfl : e = d := heq
      exact ⟨r, hr, he, hl⟩
    · cases hl
  · rintro ⟨r, hr, hd, hl⟩
    exact ⟨(r, d), ⟨r, hr, d, hd, rfl⟩, by rw [if_pos rfl, hl]⟩

theorem value_labels (grid : Grid) (reads : List TimedAccess) :
    (labels grid reads).value = (reads.flatMap fun r => r.dimensions.map fun d => (r, d)).foldl
      (fun m e => (label? grid e.1 e.2).value.elim m
        fun l => m.alter e.2 fun ls => ls.getD [] ++ [l]) .empty := by
  rw [labels, Checked.value_foldlM]
  congr 1
  funext m e
  rw [Checked.value_bind]
  cases (label? grid e.1 e.2).value <;> rfl

theorem getD_find?_labels (grid : Grid) (reads : List TimedAccess) (d : Dimension) :
    ((labels grid reads).value.find? d).getD [] = requests grid reads d := by
  rw [value_labels, requests]
  generalize reads.flatMap _ = es
  -- What was collected before stays in front.
  have hfold (m : OrdMap Dimension (List HaloLabel)) :
      ((es.foldl (fun m e => (label? grid e.1 e.2).value.elim m
        fun l => m.alter e.2 fun ls => ls.getD [] ++ [l]) m).find? d).getD [] =
      (m.find? d).getD [] ++ es.filterMap fun e =>
        if e.2 = d then (label? grid e.1 e.2).value else none := by
    induction es generalizing m with
    | nil => simp
    | cons e es ih =>
      rw [List.foldl_cons, ih, List.filterMap_cons]
      cases (label? grid e.1 e.2).value with
      | none => simp
      | some l =>
        by_cases hd : e.2 = d
        · simp [hd, OrdMap.find?_alter]
        · simp [hd, OrdMap.find?_alter]
  exact hfold .empty

theorem agree_eq_ok {f : GridFunction} {d : Dimension} {found : List HaloLabel} {l : HaloLabel} :
    agree f d found = .ok l ↔ l ∈ found ∧ ∀ l' ∈ found, l' = l := by
  have hall (l' : HaloLabel) : l' ∈ HaloLabel.all := by cases l' <;> decide
  unfold agree
  constructor
  · intro h
    split at h
    · next l' heq =>
      obtain rfl := Except.ok.inj h
      have hmem (l : HaloLabel) : l ∈ found ↔ l = l' := by
        rw [← List.mem_singleton, ← heq, List.mem_filter]
        simp [hall l]
      exact ⟨(hmem l').2 rfl, fun l hl => (hmem l).1 hl⟩
    · cases h
  · rintro ⟨hl, hsame⟩
    have hfilter : HaloLabel.all.filter found.contains = [l] := by
      have hcontains (l' : HaloLabel) : found.contains l' = (l' == l) := by
        rw [Bool.eq_iff_iff, List.contains_iff_mem, beq_iff_eq]
        exact ⟨hsame l', fun heq => heq ▸ hl⟩
      rw [List.filter_congr fun l' _ => hcontains l']
      cases l <;> decide
    rw [hfilter]

theorem agreeAll_eq_ok {f : GridFunction} {found : OrdMap Dimension (List HaloLabel)}
    {m : OrdMap Dimension HaloLabel} (h : agreeAll f found = .ok m) :
    ∃ os, m = .ofList os ∧
      List.Forall₂ (fun e o => e.1 = o.1 ∧ agree f e.1 e.2 = .ok o.2) found.entries os := by
  unfold agreeAll at h
  rw [Analysis.bind_eq_ok] at h
  obtain ⟨os, hos, h⟩ := h
  refine ⟨os, (Except.ok.inj h).symm, (Analysis.mapM_eq_ok.1 hos).imp ?_⟩
  intro e o ho
  rw [Analysis.bind_eq_ok] at ho
  obtain ⟨l, hl, ho⟩ := ho
  obtain rfl := Except.ok.inj ho
  exact ⟨rfl, hl⟩

theorem exists_find?_agreeAll {f : GridFunction} {found : OrdMap Dimension (List HaloLabel)}
    {m : OrdMap Dimension HaloLabel} (h : agreeAll f found = .ok m) {d : Dimension}
    {ls : List HaloLabel} (hls : found.find? d = some ls) :
    ∃ l, m.find? d = some l ∧ agree f d ls = .ok l := by
  obtain ⟨os, rfl, hrelated⟩ := agreeAll_eq_ok h
  obtain ⟨l, hl, -, hagree⟩ := OrdMap.exists_find?_ofList (fun _ _ h => h.1) found.nodup_keys
    hrelated (OrdMap.find?_eq_some_iff.1 hls)
  exact ⟨l, hl, hagree⟩

theorem find?_agreeAll {f : GridFunction} {found : OrdMap Dimension (List HaloLabel)}
    {m : OrdMap Dimension HaloLabel} (h : agreeAll f found = .ok m) {d : Dimension}
    {l : HaloLabel} :
    m.find? d = some l ↔ agree f d ((found.find? d).getD []) = .ok l := by
  constructor
  · intro hl
    obtain ⟨os, rfl, hrelated⟩ := agreeAll_eq_ok h
    obtain ⟨ls, hls, hagree⟩ := OrdMap.exists_of_find?_ofList (fun _ _ h => h.1) hrelated hl
    rw [OrdMap.find?_eq_some_iff.2 hls]
    exact hagree.2
  · intro hagree
    cases hls : found.find? d with
    | none =>
      rw [hls, agree_eq_ok] at hagree
      cases hagree.1
    | some ls =>
      obtain ⟨l', hl', hagree'⟩ := exists_find?_agreeAll h hls
      rw [hls, Option.getD_some, hagree', Except.ok.injEq] at hagree
      rw [hl', hagree]

theorem mem_observe {s : Scope} {f : GridFunction} {m : OrdMap Dimension (List HaloLabel)} :
    (f, m) ∈ (observe s).value ↔ f.isTensor = true ∧ ∃ grid, f.grid = some grid ∧
      ∃ reads, s.reads.find? f = some reads ∧ m = (labels grid reads).value := by
  unfold observe
  simp only [Checked.value_mapM, List.mem_map, List.mem_filterMap, Checked.value_bind,
    Checked.value_pure, Prod.mk.injEq, OrdMap.find?_eq_some_iff]
  constructor
  · rintro ⟨_, ⟨e, he, hgrid⟩, rfl, rfl⟩
    split at hgrid
    · next htensor =>
      obtain ⟨grid, hsome, rfl⟩ := Option.map_eq_some_iff.1 hgrid
      exact ⟨htensor, grid, hsome, e.2, he, rfl⟩
    · cases hgrid
  · rintro ⟨htensor, grid, hgrid, reads, hreads, rfl⟩
    exact ⟨(f, grid, reads), ⟨_, hreads, by rw [if_pos htensor, hgrid]; rfl⟩, rfl, rfl⟩

theorem nodup_observe (s : Scope) : ((observe s).value.map (·.1)).Nodup := by
  have hreads := s.reads.nodup_keys
  unfold OrdMap.keys at hreads
  unfold observe
  rw [Checked.value_mapM, List.map_map]
  rw [List.Nodup, List.pairwise_map] at hreads ⊢
  apply hreads.filterMap
  intro e e' hne a ha b hb
  split at ha
  · split at hb
    · obtain ⟨_, -, rfl⟩ := Option.map_eq_some_iff.1 ha
      obtain ⟨_, -, rfl⟩ := Option.map_eq_some_iff.1 hb
      exact hne
    · cases hb
  · cases ha

theorem find?_classification {s : Scope} {c : Classification} {diagnostics : List Diagnostic}
    (h : (classify s).run.value = .ok (c, diagnostics)) {f : GridFunction} :
    (∀ m, c.find? f = some m → f.isTensor = true ∧ ∃ grid, f.grid = some grid ∧
      ∃ reads, s.reads.find? f = some reads ∧ agreeAll f (labels grid reads).value = .ok m) ∧
    ∀ grid reads, f.isTensor = true → f.grid = some grid → s.reads.find? f = some reads →
      ∃ m, c.find? f = some m ∧ agreeAll f (labels grid reads).value = .ok m := by
  unfold classify at h
  rw [Analysis.value_bind_eq_ok] at h
  obtain ⟨found, hfound, h⟩ := h
  obtain rfl := Except.ok.inj hfound
  rw [Analysis.value_bind_eq_ok] at h
  obtain ⟨labelled, hlabelled, h⟩ := h
  obtain rfl := (Prod.mk.inj (Except.ok.inj h)).1
  have hrelated : List.Forall₂ (fun e o => e.1 = o.1 ∧ agreeAll e.1 e.2 = .ok o.2)
      (observe s).value labelled := by
    apply (Analysis.value_mapM_eq_ok.1 hlabelled).imp
    intro e o ho
    rw [Analysis.value_bind_eq_ok] at ho
    obtain ⟨m, hm, ho⟩ := ho
    obtain rfl := Except.ok.inj ho
    exact ⟨rfl, hm⟩
  constructor
  · intro m hm
    obtain ⟨ls, hls, -, hagree⟩ := OrdMap.exists_of_find?_ofList (fun _ _ h => h.1) hrelated hm
    obtain ⟨htensor, grid, hgrid, reads, hreads, rfl⟩ := mem_observe.1 hls
    exact ⟨htensor, grid, hgrid, reads, hreads, hagree⟩
  · intro grid reads htensor hgrid hreads
    obtain ⟨m, hm, -, hagree⟩ := OrdMap.exists_find?_ofList (fun _ _ h => h.1) (nodup_observe s)
      hrelated (mem_observe.2 ⟨htensor, grid, hgrid, reads, hreads, rfl⟩)
    exact ⟨m, hm, hagree⟩

section Labels

variable {s : Scope} {c : Classification} {diagnostics : List Diagnostic} {f : GridFunction}
variable {grid : Grid}

theorem exists_agreeAll (h : (classify s).run.value = .ok (c, diagnostics))
    (htensor : f.isTensor = true) (hgrid : f.grid = some grid) (hread : s.reads.of f ≠ []) :
    ∃ m, c.find? f = some m ∧ agreeAll f (labels grid (s.reads.of f)).value = .ok m := by
  have hreads : s.reads.find? f = some (s.reads.of f) := by
    unfold AccessMap.of at hread ⊢
    cases hfind : s.reads.find? f with
    | none => simp [hfind] at hread
    | some reads => rfl
  exact (find?_classification h).2 grid _ htensor hgrid hreads

theorem exists_labels (h : (classify s).run.value = .ok (c, diagnostics))
    (htensor : f.isTensor = true) (hgrid : f.grid = some grid) (hread : s.reads.of f ≠ []) :
    ∃ m, c.find? f = some m ∧ ∀ d l, m.find? d = some l ↔
      l ∈ requests grid (s.reads.of f) d ∧ ∀ l' ∈ requests grid (s.reads.of f) d, l' = l := by
  obtain ⟨m, hm, hagree⟩ := exists_agreeAll h htensor hgrid hread
  refine ⟨m, hm, ?_⟩
  intro d l
  rw [find?_agreeAll hagree, getD_find?_labels, agree_eq_ok]

theorem exists_find?_eq_of_mem_requests (h : (classify s).run.value = .ok (c, diagnostics))
    (htensor : f.isTensor = true) (hgrid : f.grid = some grid) {d : Dimension} {l : HaloLabel}
    (hl : l ∈ requests grid (s.reads.of f) d) :
    ∃ m, c.find? f = some m ∧ m.find? d = some l := by
  obtain ⟨r, hr, -⟩ := mem_requests.1 hl
  obtain ⟨m, hm, hagree⟩ := exists_agreeAll h htensor hgrid (List.ne_nil_of_mem hr)
  refine ⟨m, hm, ?_⟩
  rw [← getD_find?_labels] at hl
  cases hls : (labels grid (s.reads.of f)).value.find? d with
  | none =>
    rw [hls] at hl
    cases hl
  | some ls =>
    obtain ⟨l', hl', hagree⟩ := exists_find?_agreeAll hagree hls
    rw [hls] at hl
    rw [hl', (agree_eq_ok.1 hagree).2 l hl]

end Labels

end Halo

theorem HaloScheme.Built.exists_reference {eqs : List Equation} {space : IterationSpace}
    {data : DataSpace} {hs : HaloScheme} {scope : Scope} {classification : Halo.Classification}
    (h : Built eqs space data hs scope classification) {f : GridFunction}
    {labels : OrdMap Dimension HaloLabel} (hlabels : classification.find? f = some labels)
    {d : Dimension} {l : HaloLabel} (hl : labels.find? d = some l) :
    ∃ eq ∈ eqs, ∃ r ∈ eq.references, r.function = f ∧ d ∈ f.dimensions := by
  obtain ⟨-, grid, -, reads, hreads, hagree⟩ :=
    (Halo.find?_classification h.classify_eq).1 labels hlabels
  rw [Halo.find?_agreeAll hagree, Halo.getD_find?_labels, Halo.agree_eq_ok] at hl
  obtain ⟨a, ha, hdim, -⟩ := Halo.mem_requests.1 hl.1
  have hmem : a ∈ scope.reads.of f := by
    unfold AccessMap.of
    rw [hreads]
    exact ha
  obtain ⟨p, hp, r, hr, rfl, heq⟩ := Scope.exists_read h.scope_eq hmem
  obtain ⟨eq, heqs, rfl⟩ := List.mem_map.1 (List.mem_of_getElem? hp)
  rw [heq] at hdim
  exact ⟨eq, heqs, r, hr, rfl, hdim⟩

end Stencil
