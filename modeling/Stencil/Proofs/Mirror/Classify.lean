import Stencil.Proofs.Halo.Classify
import Stencil.Proofs.Mirror.Scope

/-!
This module contains the labels of reflected equations. An index of the form `d + k` is regular and
so is its reflection, so reflected reads ask for the same exchanges.
-/

namespace Stencil

namespace TimedAccess

variable {d : Dimension} {a : TimedAccess}

theorem value_isRegularAlong? (a : TimedAccess) (e : Dimension) :
    (a.access.isRegularAlong? e).value = (a.function.indexOf? e).bind fun i =>
      a.indices[i]?.map fun index => (Access.isRegularIndex e index).value := by
  unfold Access.isRegularAlong? function indices
  cases a.access.function.indexOf? e with
  | none => rfl
  | some i =>
    dsimp only
    cases hi : a.access.indices[i]? with
    | none => simp [hi]
    | some index => simp [hi]

theorem value_isRegularAlong?_mirror (ha : a.Mirrorable d) (e : Dimension) :
    ((a.mirror d).access.isRegularAlong? e).value = (a.access.isRegularAlong? e).value := by
  rw [value_isRegularAlong?, value_isRegularAlong?, function_mirror, indices_mirror]
  cases hi : a.function.indexOf? e with
  | none => rfl
  | some i =>
    rw [Option.bind_some, Option.bind_some]
    have hdim : a.dimensions[i]? = some e := by
      obtain ⟨hi, heq, -⟩ := List.idxOf?_eq_some_iff.1 hi
      exact List.getElem?_eq_some_iff.2 ⟨hi, heq⟩
    have hindex (is : List Expr) :
        ((a.dimensions.zip is).map fun p => (Access.isRegularIndex p.1 p.2).value)[i]? =
          is[i]?.map fun index => (Access.isRegularIndex e index).value := by
      rw [List.getElem?_map, List.zip, List.getElem?_zipWith, hdim]
      cases is[i]? <;> rfl
    rw [← hindex, ← hindex, ha.fit.regularity_mirrorIndices]

theorem value_label? (grid : Grid) (a : TimedAccess) (e : Dimension) :
    (Halo.label? grid a e).value =
      if (a.access.isRegularAlong? e).value == some true then
        some (if grid.isDistributed e then .stencil else .none)
      else if a.isIncrement then
        some .unsupported
      else if (a.access.isRegularAlong? e).value == some false then
        if grid.isDistributed e then some .full else none
      else
        none := by
  unfold Halo.label? Access.isAffine Access.isIrregular
  rw [Checked.value_bind, Checked.value_bind, Checked.value_pure]
  by_cases haffine : ((a.access.isRegularAlong? e).value == some true) = true
  · rw [if_pos haffine, if_pos haffine, Checked.value_pure]
  · rw [if_neg haffine, if_neg haffine]
    by_cases hincrement : a.isIncrement = true
    · rw [if_pos hincrement, if_pos hincrement, Checked.value_pure]
    · rw [if_neg hincrement, if_neg hincrement, Checked.value_bind, Checked.value_bind,
        Checked.value_pure]
      split <;> rfl

theorem value_label?_mirror (ha : a.Mirrorable d) (grid : Grid) (e : Dimension) :
    (Halo.label? grid (a.mirror d) e).value = (Halo.label? grid a e).value := by
  have hincrement : (a.mirror d).isIncrement = a.isIncrement := rfl
  rw [value_label?, value_label?, value_isRegularAlong?_mirror ha, hincrement]

end TimedAccess

namespace Halo

variable {d : Dimension} {grid : Grid} {reads reads' : List TimedAccess}

theorem mem_requests_mirror (hperm : reads'.Perm (reads.map (TimedAccess.mirror d)))
    (h : ∀ a ∈ reads, a.Mirrorable d) {e : Dimension} {l : HaloLabel} :
    l ∈ requests grid reads' e ↔ l ∈ requests grid reads e := by
  rw [mem_requests, mem_requests]
  constructor
  · rintro ⟨a', ha', he, hl⟩
    obtain ⟨a, ha, rfl⟩ := List.mem_map.1 (hperm.subset ha')
    rw [TimedAccess.value_label?_mirror (h a ha)] at hl
    exact ⟨a, ha, he, hl⟩
  · rintro ⟨a, ha, he, hl⟩
    rw [← TimedAccess.value_label?_mirror (h a ha)] at hl
    exact ⟨a.mirror d, hperm.symm.subset (List.mem_map_of_mem ha), he, hl⟩

theorem isSome_find?_labels (grid : Grid) (reads : List TimedAccess) (e : Dimension) :
    ((labels grid reads).value.find? e).isSome = true ↔ ∃ l, l ∈ requests grid reads e := by
  rw [value_labels, requests]
  generalize reads.flatMap _ = es
  have hfold (m : OrdMap Dimension (List HaloLabel)) :
      ((es.foldl (fun m e => (label? grid e.1 e.2).value.elim m
        fun l => m.alter e.2 fun ls => ls.getD [] ++ [l]) m).find? e).isSome = true ↔
      (m.find? e).isSome = true ∨ ∃ l, l ∈ es.filterMap fun p =>
        if p.2 = e then (label? grid p.1 p.2).value else none := by
    induction es generalizing m with
    | nil => simp
    | cons p es ih =>
      rw [List.foldl_cons, ih, List.filterMap_cons]
      cases (label? grid p.1 p.2).value with
      | none => simp
      | some l =>
        by_cases he : p.2 = e
        · simp [he, OrdMap.find?_alter]
        · simp [he, OrdMap.find?_alter]
  rw [hfold, OrdMap.find?_empty]
  simp

theorem agree_congr {found found' : List HaloLabel} (h : ∀ l, l ∈ found' ↔ l ∈ found)
    (f : GridFunction) (e : Dimension) : agree f e found' = agree f e found := by
  have hcontains : found'.contains = found.contains := by
    funext l
    rw [Bool.eq_iff_iff, List.contains_iff_mem, List.contains_iff_mem, h]
  unfold agree
  rw [hcontains]

theorem mapM_congr_of_forall₂ {α β γ ε : Type} {F : α → Except ε γ} {G : β → Except ε γ}
    {as : List α} {bs : List β} (h : List.Forall₂ (fun a b => F a = G b) as bs) :
    as.mapM F = bs.mapM G := by
  induction h with
  | nil => rfl
  | cons hab _ ih => rw [List.mapM_cons, List.mapM_cons, hab, ih]

theorem agreeAll_congr {found found' : OrdMap Dimension (List HaloLabel)}
    (hsome : ∀ e, (found'.find? e).isSome = (found.find? e).isSome)
    (hmem : ∀ e l, l ∈ (found'.find? e).getD [] ↔ l ∈ (found.find? e).getD []) (f : GridFunction) :
    agreeAll f found' = agreeAll f found := by
  have hentries : List.Forall₂ (fun e e' => (do return (e.1, ← agree f e.1 e.2)) =
      (do return (e'.1, ← agree f e'.1 e'.2))) found'.entries found.entries := by
    apply (OrdMap.forall₂_entries (R := fun ls' ls => ∀ l, l ∈ ls' ↔ l ∈ ls) hsome ?_).imp
    · rintro e e' ⟨hkey, hls⟩
      rw [agree_congr hls, hkey]
    · intro e ls' ls hls' hls l
      have hl := hmem e l
      rwa [hls', hls] at hl
  unfold agreeAll
  rw [mapM_congr_of_forall₂ hentries]

theorem agreeAll_labels_mirror (hperm : reads'.Perm (reads.map (TimedAccess.mirror d)))
    (h : ∀ a ∈ reads, a.Mirrorable d) (f : GridFunction) :
    agreeAll f (labels grid reads').value = agreeAll f (labels grid reads).value := by
  apply agreeAll_congr
  · intro e
    rw [Bool.eq_iff_iff, isSome_find?_labels, isSome_find?_labels]
    simp only [mem_requests_mirror hperm h]
  · intro e l
    rw [getD_find?_labels, getD_find?_labels]
    exact mem_requests_mirror hperm h

theorem value_observe (s : Scope) :
    (observe s).value = s.reads.entries.filterMap fun e =>
      if e.1.isTensor then e.1.grid.map fun grid => (e.1, (labels grid e.2).value) else none := by
  unfold observe
  rw [Checked.value_mapM, List.map_filterMap]
  congr 1
  funext e
  split
  · rw [Option.map_map]
    rfl
  · rfl

theorem forall₂_observe_mirror {s s' : Scope} (hs : s.reads.Mirrors d s'.reads)
    (h : ∀ f, ∀ a ∈ s.reads.of f, a.Mirrorable d) :
    List.Forall₂ (fun e e' => e.1 = e'.1 ∧ agreeAll e.1 e.2 = agreeAll e'.1 e'.2)
      (observe s).value (observe s').value := by
  have hmem : ∀ e ∈ s.reads.entries, ∀ a ∈ e.2, a.Mirrorable d := by
    intro e he a ha
    rw [← AccessMap.of_eq_of_mem he] at ha
    exact h e.1 a ha
  rw [value_observe, value_observe]
  have hentries := hs.forall₂_entries
  generalize s.reads.entries = es at hmem hentries
  generalize s'.reads.entries = es' at hentries
  induction hentries with
  | nil => exact .nil
  | @cons e e' es es' hee' _ ih =>
    obtain ⟨hkey, hperm⟩ := hee'
    rw [List.forall_mem_cons] at hmem
    rw [List.filterMap_cons, List.filterMap_cons, ← hkey]
    by_cases htensor : e.1.isTensor = true
    · rw [if_pos htensor, if_pos htensor]
      cases e.1.grid with
      | none => exact ih hmem.2
      | some grid =>
        refine .cons ⟨rfl, ?_⟩ (ih hmem.2)
        exact (agreeAll_labels_mirror hperm hmem.1 e.1).symm
    · rw [if_neg htensor, if_neg htensor]
      exact ih hmem.2

theorem value_classify_mirror {s s' : Scope} (hs : s.reads.Mirrors d s'.reads)
    (h : ∀ f, ∀ a ∈ s.reads.of f, a.Mirrorable d) :
    (classify s').run.value = (classify s).run.value := by
  have hmapM : ((observe s).value.mapM fun e => do return (e.1, ← agreeAll e.1 e.2) :
        HaloAnalysis (List (GridFunction × OrdMap Dimension HaloLabel))).run.value =
      ((observe s').value.mapM fun e => do return (e.1, ← agreeAll e.1 e.2) :
        HaloAnalysis (List (GridFunction × OrdMap Dimension HaloLabel))).run.value := by
    rw [Analysis.value_mapM, Analysis.value_mapM]
    apply mapM_congr_of_forall₂
    apply (forall₂_observe_mirror hs h).imp
    rintro e e' ⟨hkey, hagree⟩
    rw [hagree, hkey]
  have hobserve (s : Scope) : (liftM (observe s) : HaloAnalysis _).run.value =
    .ok (observe s).value := rfl
  unfold classify
  rw [Analysis.value_bind_of_ok (hobserve s), Analysis.value_bind_of_ok (hobserve s'),
    Analysis.value_bind, Analysis.value_bind, hmapM]

end Halo

end Stencil
