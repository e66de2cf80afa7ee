import Mathlib.Data.Finset.Range
import Stencil.Proofs.Fraction
import Stencil.Proofs.Tuning.Shapes

/-!
This module contains which shapes a list is enriched with. The three kinds of new shapes are
described on their own: by where a shape is put into a list, by where its last size comes from, and
by the set of positions at which its sizes are doubled. What comes out is all of these shapes and no
others, each of them once.
-/

namespace Stencil.Tuning

namespace BlockShape

variable {s t u : BlockShape} {ps : List Parameter} {shapes : List BlockShape}

/--
`shapes'` is `shapes` with `t` right behind the first occurrence of `s`, or at the end if `s` does
not occur.
-/
def InsertedAfter (s t : BlockShape) (shapes shapes' : List BlockShape) : Prop :=
  (∃ front back, s ∉ front ∧ shapes = front ++ s :: back ∧ shapes' = front ++ s :: t :: back) ∨
    s ∉ shapes ∧ shapes' = shapes ++ [t]

/--
`shapes'` is `shapes` with `n` successive doubles of a uniform shape, each of them behind the shape
that it is the double of.
-/
inductive Ramped (ps : List Parameter) :
    Nat → Int → List BlockShape → List BlockShape → Prop where
  | done {size : Int} {shapes : List BlockShape} : Ramped ps 0 size shapes shapes
  | double {n : Nat} {size : Int} {shapes shapes' shapes'' : List BlockShape}
      (hinserted : InsertedAfter (uniform ps size) (uniform ps (2 * size)) shapes shapes')
      (hrest : Ramped ps n (2 * size) shapes' shapes'') : Ramped ps (n + 1) size shapes shapes''

def IsWithLastOf (s u t : BlockShape) : Prop :=
  ∃ front front' name name' size size', s.sizes = front ++ [(name, size)] ∧
    u.sizes = front' ++ [(name', size')] ∧ t.sizes = front ++ [(name, size')]

def IsDoubleAt (positions : Finset Nat) (s t : BlockShape) : Prop :=
  t.sizes = s.sizes.mapIdx fun i e => (e.1, if i ∈ positions then 2 * e.2 else e.2)

theorem ext_sizes (h : s.sizes = t.sizes) : s = t := by
  cases s
  cases t
  exact congrArg mk h

theorem insertedAfter_insertAfter (s t : BlockShape) (shapes : List BlockShape) :
    InsertedAfter s t shapes (insertAfter s t shapes) := by
  induction shapes with
  | nil => exact .inr ⟨List.not_mem_nil, rfl⟩
  | cons s' shapes ih =>
    rw [insertAfter]
    split
    · next heq =>
      subst heq
      exact .inl ⟨[], shapes, List.not_mem_nil, rfl, rfl⟩
    · next hne =>
      rcases ih with ⟨front, back, hnot, hshapes, hinserted⟩ | ⟨hnot, hinserted⟩
      · refine .inl ⟨s' :: front, back, ?_, ?_, ?_⟩
        · exact List.not_mem_cons_of_ne_of_not_mem (Ne.symm hne) hnot
        · rw [hshapes, List.cons_append]
        · rw [hinserted, List.cons_append]
      · refine .inr ⟨List.not_mem_cons_of_ne_of_not_mem (Ne.symm hne) hnot, ?_⟩
        rw [hinserted, List.cons_append]

theorem sizes_double (s : BlockShape) (positions : List Nat) :
    (s.double positions).value.sizes =
      s.sizes.mapIdx fun i e => (e.1, if i ∈ positions then 2 * e.2 else e.2) := by
  unfold double
  rw [Checked.value_bind, Checked.value_pure, Checked.value_mapM, List.mapIdx_eq_zipIdx_map]
  apply List.map_congr_left
  rintro ⟨⟨name, size⟩, i⟩ -
  by_cases hi : i ∈ positions
  · simp [hi, Word.mul, Word.signed, Int.mul_comm]
  · simp [hi]

theorem fits_double (s : BlockShape) (positions : List Nat) :
    (s.double positions).fits = true ↔
      ∀ i ∈ positions, ∀ e, s.sizes[i]? = some e → Word.isSigned (2 * e.2) = true := by
  unfold double
  rw [Checked.fits_bind, Checked.fits_pure, Bool.and_true, Checked.fits_mapM]
  constructor
  · intro h i hi e he
    have hfits := h (e, i) (List.mem_zipIdx_iff_getElem?.2 he)
    simpa [hi, Word.mul, Word.signed, Int.mul_comm] using hfits
  · rintro h ⟨⟨name, size⟩, i⟩ he
    rw [List.mem_zipIdx_iff_getElem?] at he
    by_cases hi : i ∈ positions
    · simpa [hi, Word.mul, Word.signed, Int.mul_comm] using h i hi _ he
    · simp [hi]

theorem value_double_uniform (ps : List Parameter) (size : Int) :
    ((uniform ps size).double (List.range ps.length)).value = uniform ps (2 * size) := by
  apply ext_sizes
  rw [sizes_double]
  apply List.ext_getElem?
  intro i
  by_cases hi : i < ps.length
  · simp [uniform, hi]
  · simp [uniform, hi]

theorem ramped_ramp (n : Nat) (size : Int) (shapes : List BlockShape) :
    Ramped ps n size shapes (ramp ps n (uniform ps size) shapes).value := by
  induction n generalizing size shapes with
  | zero => exact .done
  | succ n ih =>
    rw [ramp, Checked.value_bind, value_double_uniform]
    exact .double (insertedAfter_insertAfter ..) (ih ..)

theorem isWithLastOf_iff (hs : s.sizes ≠ []) (hu : u.sizes ≠ []) :
    IsWithLastOf s u t ↔ t = s.withLastOf u := by
  obtain ⟨⟨name, size⟩, hlast⟩ := List.getLast?_isSome.2 hs |> Option.isSome_iff_exists.1
  obtain ⟨⟨name', size'⟩, hlast'⟩ := List.getLast?_isSome.2 hu |> Option.isSome_iff_exists.1
  obtain ⟨front, hsizes⟩ := List.getLast?_eq_some_iff.1 hlast
  obtain ⟨front', hsizes'⟩ := List.getLast?_eq_some_iff.1 hlast'
  have hwith : (s.withLastOf u).sizes = front ++ [(name, size')] := by
    simp [withLastOf, hsizes, hsizes']
  constructor
  · rintro ⟨_, _, _, _, _, _, hs', hu', ht⟩
    apply ext_sizes
    rw [hwith, ht]
    simp_all
  · rintro rfl
    exact ⟨_, _, _, _, _, _, hsizes, hsizes', hwith⟩

theorem mem_sublistsOfLength {α : Type} {k : Nat} {as bs : List α} :
    bs ∈ sublistsOfLength k as ↔ bs.Sublist as ∧ bs.length = k := by
  induction as generalizing k bs with
  | nil =>
    cases k with
    | zero => simp [sublistsOfLength]
    | succ k => cases bs <;> simp [sublistsOfLength]
  | cons a as ih =>
    cases k with
    | zero =>
      rw [sublistsOfLength, List.mem_singleton, List.length_eq_zero_iff]
      exact ⟨fun h => ⟨h ▸ List.nil_sublist _, h⟩, And.right⟩
    | succ k =>
      rw [sublistsOfLength, List.mem_append, List.mem_map, ih, List.sublist_cons_iff]
      constructor
      · rintro (⟨bs, hbs, rfl⟩ | ⟨hsub, hlength⟩)
        · obtain ⟨hsub, hlength⟩ := ih.1 hbs
          exact ⟨.inr ⟨bs, rfl, hsub⟩, congrArg (· + 1) hlength⟩
        · exact ⟨.inl hsub, hlength⟩
      · rintro ⟨hsub | ⟨bs, rfl, hsub⟩, hlength⟩
        · exact .inr ⟨hsub, hlength⟩
        · exact .inl ⟨bs, ih.2 ⟨hsub, Nat.succ.inj hlength⟩, rfl⟩

theorem mem_positions {n : Nat} {positions : List Nat} :
    positions ∈ (List.range n).flatMap (fun k => sublistsOfLength (k + 1) (List.range n)) ↔
      positions.Sublist (List.range n) ∧ positions ≠ [] := by
  simp only [List.mem_flatMap, List.mem_range, mem_sublistsOfLength]
  constructor
  · rintro ⟨k, -, hsub, hlength⟩
    exact ⟨hsub, List.ne_nil_of_length_eq_add_one hlength⟩
  · rintro ⟨hsub, hne⟩
    have hle := hsub.length_le
    have hpos := List.length_pos_iff.2 hne
    rw [List.length_range] at hle
    exact ⟨positions.length - 1, by omega, hsub, by omega⟩

theorem mem_partialDoubles :
    t ∈ s.partialDoubles.value ↔ ∃ positions : Finset Nat, positions.Nonempty ∧
      positions ⊆ Finset.range s.sizes.length ∧ IsDoubleAt positions s t := by
  unfold partialDoubles
  simp only [Checked.value_mapM, List.mem_map, mem_positions]
  constructor
  · rintro ⟨positions, ⟨hsub, hne⟩, rfl⟩
    refine ⟨positions.toFinset, List.toFinset_nonempty_iff _ |>.2 hne, ?_, ?_⟩
    · intro i hi
      exact Finset.mem_range.2 (List.mem_range.1 (hsub.subset (List.mem_toFinset.1 hi)))
    · unfold IsDoubleAt
      simp only [sizes_double, List.mem_toFinset]
  · rintro ⟨positions, ⟨i, hi⟩, hrange, ht⟩
    have hmem : ∀ j, j ∈ (List.range s.sizes.length).filter (· ∈ positions) ↔ j ∈ positions := by
      intro j
      rw [List.mem_filter, List.mem_range, decide_eq_true_iff]
      exact and_iff_right_of_imp fun hj => Finset.mem_range.1 (hrange hj)
    refine ⟨_, ⟨List.filter_sublist, List.ne_nil_of_mem ((hmem i).2 hi)⟩, ?_⟩
    apply ext_sizes
    simp only [sizes_double, hmem]
    exact ht.symm

theorem fits_partialDoubles :
    s.partialDoubles.fits = true ↔ ∀ e ∈ s.sizes, Word.isSigned (2 * e.2) = true := by
  unfold partialDoubles
  simp only [Checked.fits_mapM, mem_positions, fits_double]
  constructor
  · intro h e he
    obtain ⟨i, hi⟩ := List.mem_iff_getElem?.1 he
    have hrange : i ∈ List.range s.sizes.length :=
      List.mem_range.2 (List.getElem?_eq_some_iff.1 hi).1
    exact h [i] ⟨List.singleton_sublist.2 hrange, List.cons_ne_nil _ _⟩ i
      (List.mem_singleton_self i) e hi
  · intro h positions _ i _ e he
    exact h e (List.mem_of_getElem? he)

theorem InsertedAfter.mem_iff {shapes' : List BlockShape} (h : InsertedAfter s t shapes shapes')
    (x : BlockShape) : x ∈ shapes' ↔ x = t ∨ x ∈ shapes := by
  rcases h with ⟨front, back, -, rfl, rfl⟩ | ⟨-, rfl⟩ <;> grind

theorem Ramped.subset {n : Nat} {size : Int} {shapes' : List BlockShape}
    (h : Ramped ps n size shapes shapes') : shapes ⊆ shapes' := by
  induction h with
  | done => exact fun _ => id
  | double hinserted _ ih => exact fun x hx => ih ((hinserted.mem_iff x).2 (.inr hx))

theorem fits_ramp {n : Nat} {size : Int}
    (h : ∀ x ∈ (ramp ps n (uniform ps size) shapes).value, ∀ e ∈ x.sizes,
      Word.isSigned (2 * e.2) = true) : (ramp ps n (uniform ps size) shapes).fits = true := by
  induction n generalizing size shapes with
  | zero => rfl
  | succ n ih =>
    have hinserted := insertedAfter_insertAfter (uniform ps size) (uniform ps (2 * size)) shapes
    rw [ramp, Checked.value_bind, value_double_uniform] at h
    rw [ramp, Checked.fits_bind, value_double_uniform, Bool.and_eq_true]
    refine ⟨?_, ih h⟩
    -- The double is a member of the list, so even its own double is in range.
    have hdouble := h _ ((ramped_ramp ..).subset ((hinserted.mem_iff _).2 (.inl rfl)))
    rw [fits_double]
    intro i _ e he
    obtain ⟨p, hp, rfl⟩ := List.mem_map.1 (List.mem_of_getElem? he)
    have hsigned := hdouble _ (List.mem_map_of_mem hp)
    rw [Int.mul_comm] at hsigned
    exact Word.isSigned_of_mul (k := 2) two_ne_zero hsigned

theorem fits_enrich {largest : Int} :
    (enrich ps largest shapes).fits = true ↔
      ∀ x ∈ (ramp ps 3 (uniform ps largest) shapes).value, ∀ e ∈ x.sizes,
        Word.isSigned (2 * e.2) = true := by
  unfold enrich
  simp only [Checked.fits_bind, Checked.fits_pure, Bool.and_true, Bool.and_eq_true,
    Checked.fits_mapM, fits_partialDoubles]
  exact ⟨And.right, fun h => ⟨fits_ramp h, h⟩⟩

theorem value_enrich (ps : List Parameter) (largest : Int) (shapes : List BlockShape) :
    (enrich ps largest shapes).value =
      ((ramp ps 3 (uniform ps largest) shapes).value ++
        (((ramp ps 3 (uniform ps largest) shapes).value.take 4).flatMap fun s =>
          (ramp ps 3 (uniform ps largest) shapes).value.map s.withLastOf) ++
        ((ramp ps 3 (uniform ps largest) shapes).value.map
          fun s => s.partialDoubles.value).flatten).eraseDups := by
  unfold enrich
  simp only [Checked.value_bind, Checked.value_pure, Checked.value_mapM]

/--
The shapes that a list of shapes is enriched to: with `ramped` for the list in which three doubles
of the largest uniform shape are inserted, the shapes of `ramped` come first, and with them there
are the first four of them with the last size of each of them, and each of them doubled at each
non-empty set of positions. Everything stays in range if the doubles of the sizes in `ramped` do.
-/
theorem enrich_exact (ps : List Parameter) (largest : Int) (shapes : List BlockShape)
    (hps : ps ≠ []) (hshapes : ∀ s ∈ shapes, s.names = ps.map (·.name)) :
    ∃ ramped, Ramped ps 3 largest shapes ramped ∧
      ((enrich ps largest shapes).fits = true ↔
        ∀ s ∈ ramped, ∀ e ∈ s.sizes, Word.isSigned (2 * e.2) = true) ∧
      (enrich ps largest shapes).value.Nodup ∧
      (∀ t, t ∈ (enrich ps largest shapes).value ↔
        t ∈ ramped ∨ (∃ s ∈ ramped.take 4, ∃ u ∈ ramped, IsWithLastOf s u t) ∨
          ∃ s ∈ ramped, ∃ positions : Finset Nat, positions.Nonempty ∧
            positions ⊆ Finset.range s.sizes.length ∧ IsDoubleAt positions s t) ∧
      ramped.eraseDups <+: (enrich ps largest shapes).value ∧
      ∀ t ∈ (enrich ps largest shapes).value, t.names = ps.map (·.name) := by
  have hnames : ∀ s ∈ (ramp ps 3 (uniform ps largest) shapes).value, s.names = ps.map (·.name) :=
    names_of_mem_ramp (names_uniform ps largest) hshapes
  have hsizes : ∀ s ∈ (ramp ps 3 (uniform ps largest) shapes).value, s.sizes ≠ [] := by
    rintro s hs hnil
    have hnil := hnames s hs
    simp_all [names]
  refine ⟨_, ramped_ramp 3 largest shapes, fits_enrich, ?_, fun t => ?_, ?_,
    names_of_mem_enrich rfl hshapes⟩
  · rw [value_enrich]
    exact nodup_eraseDups _
  · rw [value_enrich, List.mem_eraseDups, List.mem_append, List.mem_append, or_assoc]
    refine or_congr_right (or_congr ?_ ?_)
    · simp only [List.mem_flatMap, List.mem_map]
      refine exists_congr fun s => and_congr_right fun hs => exists_congr fun u =>
        and_congr_right fun hu => ?_
      rw [isWithLastOf_iff (hsizes s (List.mem_of_mem_take hs)) (hsizes u hu), eq_comm]
    · simp only [List.mem_flatten, List.mem_map, exists_exists_and_eq_and, mem_partialDoubles]
  · rw [value_enrich, List.append_assoc, List.eraseDups_append]
    exact List.prefix_append ..

def planeParameters : List Parameter :=
  [⟨"x0_blk_size", .space "x", ⟨.space "x", 0, (0, 0), false⟩⟩,
    ⟨"y0_blk_size", .space "y", ⟨.space "y", 0, (0, 0), false⟩⟩]

def planeShapes : List BlockShape :=
  [8, 16, 8].map (uniform planeParameters) ++ [ofSizes planeParameters [100, 60]]

theorem enrich_exact_plane :
    planeParameters ≠ [] ∧ (∀ s ∈ planeShapes, s.names = planeParameters.map (·.name)) ∧
      (enrich planeParameters 16 planeShapes).fits = true ∧
      (enrich planeParameters 16 planeShapes).value.length = 33 ∧
      (enrich planeParameters 16 planeShapes).value.Nodup ∧
      (∃ ramped, Ramped planeParameters 3 16 planeShapes ramped ∧
        ramped.eraseDups <+: (enrich planeParameters 16 planeShapes).value ∧
        ∀ s ∈ ramped.take 4, ∀ u ∈ ramped, ∀ t, IsWithLastOf s u t →
          t ∈ (enrich planeParameters 16 planeShapes).value) ∧
      ∀ t ∈ (enrich planeParameters 16 planeShapes).value,
        t.names = planeParameters.map (·.name) := by
  have hps : planeParameters ≠ [] := List.cons_ne_nil _ _
  have hshapes : ∀ s ∈ planeShapes, s.names = planeParameters.map (·.name) := by decide
  obtain ⟨ramped, hramped, -, hnodup, hmem, hprefix, hnames⟩ :=
    enrich_exact planeParameters 16 planeShapes hps hshapes
  refine ⟨hps, hshapes, by decide +kernel, by decide +kernel, hnodup,
    ⟨ramped, hramped, hprefix, ?_⟩, hnames⟩
  intro s hs u hu t ht
  exact (hmem t).2 (.inr (.inl ⟨s, hs, u, hu, ht⟩))

end BlockShape

end Stencil.Tuning
