import Stencil.Proofs.Mirror.Equation
import Stencil.Proofs.Scope.Part

/-!
This module contains the dependences of reflected equations. Reflecting the indices along `d` and
turning around the loop over `d` leaves all distances as they are, so the dependences of the
reflected equations are those of the equations, between reflected accesses.
-/

namespace Stencil

namespace OrdMap

variable {κ υ υ' : Type} [Ord κ] [Std.TransOrd κ] [Std.LawfulEqOrd κ]

theorem keys_eq_of_isSome {m : OrdMap κ υ} {m' : OrdMap κ υ'}
    (h : ∀ k, (m.find? k).isSome = (m'.find? k).isSome) : m.keys = m'.keys := by
  have hshape : m.mapValues (fun _ => ()) = m'.mapValues fun _ => () := by
    apply ext_find?
    intro k
    rw [find?_mapValues, find?_mapValues]
    have hk := h k
    cases hv : m.find? k <;> cases hv' : m'.find? k <;> simp_all
  have hkeys (υ : Type) (m : OrdMap κ υ) : (m.mapValues fun _ => ()).keys = m.keys := by
    unfold keys mapValues
    rw [List.map_map]
    rfl
  rw [← hkeys υ m, hshape, hkeys]

theorem forall₂_entries {R : υ → υ' → Prop} {m : OrdMap κ υ} {m' : OrdMap κ υ'}
    (hsome : ∀ k, (m.find? k).isSome = (m'.find? k).isSome)
    (hvalue : ∀ k v v', m.find? k = some v → m'.find? k = some v' → R v v') :
    List.Forall₂ (fun e e' => e.1 = e'.1 ∧ R e.2 e'.2) m.entries m'.entries := by
  have hkeys := keys_eq_of_isSome hsome
  unfold keys at hkeys
  rw [← List.forall₂_eq_eq_eq, List.forall₂_map_left_iff, List.forall₂_map_right_iff] at hkeys
  apply forall₂_imp_of_mem hkeys
  intro e he e' he' heq
  refine ⟨heq, hvalue e.1 e.2 e'.2 (find?_eq_some_iff.2 he) ?_⟩
  rw [heq]
  exact find?_eq_some_iff.2 he'

end OrdMap

def Direction.flip : Direction → Direction
  | forward => backward
  | backward => forward

theorem Direction.signed_flip (dir : Direction) (i : Int) : dir.flip.signed i = dir.signed (-i) := by
  cases dir with
  | forward => rfl
  | backward => simp [flip, signed]

theorem TimedAccess.offsets_nil (dirs : List Direction) (ys : List Expr) :
    offsets dirs [] ys = [] := by
  cases dirs <;> rfl

namespace Expr

def flipAlong (d : Dimension) (es : List Dimension) (dirs : List Direction) : List Direction :=
  List.zipWith (fun e dir => if e = d then dir.flip else dir) es dirs

variable {d : Dimension} {es : List Dimension} {xs ys : List Expr}

theorem Fit.offsets_mirrorIndices (hx : Fit d es xs) (hy : Fit d es ys) {dirs : List Direction}
    (hdirs : dirs.length = es.length) :
    TimedAccess.offsets (flipAlong d es dirs) (mirrorIndices d es xs) (mirrorIndices d es ys) =
      TimedAccess.offsets dirs xs ys := by
  induction hx generalizing ys dirs with
  | @along es xs x k hk _ ih =>
    obtain _ | ⟨dir, dirs⟩ := dirs
    · simp at hdirs
    cases hy with
    | @along _ ys y l hl hy =>
      have hhead := TimedAccess.difference_of_shift? (shift?_mirrorIndex hk) (shift?_mirrorIndex hl)
      have htail := ih hy (Nat.succ.inj hdirs)
      unfold flipAlong at htail ⊢
      rw [mirrorIndices, mirrorIndices, if_pos rfl, if_pos rfl, List.zipWith_cons_cons, if_pos rfl,
        TimedAccess.offsets, TimedAccess.offsets, htail, hhead,
        TimedAccess.difference_of_shift? hk hl, Direction.signed_flip]
      congr 3
      omega
    | free hne _ _ => exact absurd rfl hne
    | missing => rfl
  | free hne _ _ ih =>
    obtain _ | ⟨dir, dirs⟩ := dirs
    · simp at hdirs
    cases hy with
    | along _ _ => exact absurd rfl hne
    | free _ _ hy =>
      have htail := ih hy (Nat.succ.inj hdirs)
      unfold flipAlong at htail ⊢
      rw [mirrorIndices, mirrorIndices, if_neg hne, if_neg hne, List.zipWith_cons_cons, if_neg hne,
        TimedAccess.offsets, TimedAccess.offsets, htail]
    | missing => rfl
  | missing es => rw [mirrorIndices_nil, TimedAccess.offsets_nil, TimedAccess.offsets_nil]
  | rest _ =>
    obtain rfl := List.length_eq_zero_iff.1 hdirs
    rfl

theorem Fit.isZero_difference_mirrorIndices (hx : Fit d es xs) (hy : Fit d es ys) :
    OffsetVector.isZero (((mirrorIndices d es xs).zip (mirrorIndices d es ys)).map fun e =>
        (e.1.difference e.2).value) =
      OffsetVector.isZero ((xs.zip ys).map fun e => (e.1.difference e.2).value) := by
  unfold OffsetVector.isZero
  induction hx generalizing ys with
  | along hk _ ih =>
    cases hy with
    | along hl hy =>
      rw [mirrorIndices, mirrorIndices, if_pos rfl, if_pos rfl, List.zip_cons_cons,
        List.zip_cons_cons, List.map_cons, List.map_cons, List.all_cons, List.all_cons, ih hy,
        difference_of_shift? hk hl,
        difference_of_shift? (shift?_mirrorIndex hk) (shift?_mirrorIndex hl), toInt?_ofInt,
        toInt?_ofInt]
      congr 1
      rw [Bool.eq_iff_iff, beq_iff_eq, beq_iff_eq, Option.some_inj, Option.some_inj]
      omega
    | free hne _ _ => exact absurd rfl hne
    | missing => simp
  | free hne _ _ ih =>
    cases hy with
    | along _ _ => exact absurd rfl hne
    | free _ _ hy =>
      rw [mirrorIndices, mirrorIndices, if_neg hne, if_neg hne, List.zip_cons_cons,
        List.zip_cons_cons, List.map_cons, List.map_cons, List.all_cons, List.all_cons, ih hy]
    | missing => simp
  | missing es => simp
  | rest _ => rfl

theorem Fit.regularity_mirrorIndices (hx : Fit d es xs) :
    ((es.zip (mirrorIndices d es xs)).map fun e => (Access.isRegularIndex e.1 e.2).value) =
      (es.zip xs).map fun e => (Access.isRegularIndex e.1 e.2).value := by
  induction hx with
  | along hk _ ih =>
    rw [mirrorIndices, if_pos rfl, List.zip_cons_cons, List.zip_cons_cons, List.map_cons,
      List.map_cons, ih, Access.value_isRegularIndex hk,
      Access.value_isRegularIndex (shift?_mirrorIndex hk)]
  | free hne _ _ ih =>
    rw [mirrorIndices, if_neg hne, List.zip_cons_cons, List.zip_cons_cons, List.map_cons,
      List.map_cons, ih]
  | missing es => simp
  | rest _ => rfl

end Expr

def TimedAccess.mirror (d : Dimension) (a : TimedAccess) : TimedAccess where
  access := { a.access with indices := Expr.mirrorIndices d a.dimensions a.indices }
  timestamp := a.timestamp
  directions := Expr.flipAlong d a.dimensions a.directions
  isIncrement := a.isIncrement

def Dependence.mirror (d : Dimension) (dep : Dependence) : Dependence :=
  { dep with source := dep.source.mirror d, sink := dep.sink.mirror d }

structure TimedAccess.Mirrorable (d : Dimension) (a : TimedAccess) : Prop where
  length_directions : a.directions.length = a.dimensions.length
  fit : Expr.Fit d a.dimensions a.indices

namespace TimedAccess

section Fields

variable (d : Dimension) (a : TimedAccess)

@[simp]
theorem function_mirror : (a.mirror d).function = a.function := rfl

@[simp]
theorem dimensions_mirror : (a.mirror d).dimensions = a.dimensions := rfl

@[simp]
theorem indices_mirror : (a.mirror d).indices = Expr.mirrorIndices d a.dimensions a.indices := rfl

@[simp]
theorem directions_mirror :
    (a.mirror d).directions = Expr.flipAlong d a.dimensions a.directions := rfl

end Fields

variable {d : Dimension} {a b : TimedAccess}

theorem Aligned.mirror (h : a.Aligned b) (d : Dimension) : (a.mirror d).Aligned (b.mirror d) where
  dimensions := h.dimensions
  directions := by rw [directions_mirror, directions_mirror, h.dimensions, h.directions]
  rank := by
    rw [indices_mirror, indices_mirror, Expr.length_mirrorIndices, Expr.length_mirrorIndices, h.rank]

theorem Aligned.value_samePoint (h : a.Aligned b) :
    (a.samePoint b).run.value = .ok (decide (a.function = b.function) &&
      OffsetVector.isZero ((a.indices.zip b.indices).map fun e => (e.1.difference e.2).value)) := by
  have haccess : (a.access.samePoint b.access).run.value = .ok (decide (a.function = b.function) &&
      OffsetVector.isZero ((a.indices.zip b.indices).map fun e => (e.1.difference e.2).value)) := by
    unfold Access.samePoint
    rw [Analysis.value_bind_of_ok (Access.checkDimensions_eq_ok (u := ()).2 h.dimensions)]
    split
    · next hf =>
      have hsub : (a.access.indices.sub b.access.indices).run.value = _ :=
        OffsetVector.value_sub h.rank
      have hdecide : decide (a.function = b.function) = true := decide_eq_true hf
      rw [Analysis.value_bind_of_ok hsub, hdecide]
      rfl
    · next hf =>
      have hdecide : decide (a.function = b.function) = false := decide_eq_false hf
      rw [hdecide]
      rfl
  unfold samePoint
  rw [Analysis.value_bind_of_ok haccess, h.directions]
  simp

theorem value_regularity_mirror (ha : a.Mirrorable d) :
    (a.mirror d).access.regularity.value = a.access.regularity.value := by
  unfold Access.regularity
  rw [Checked.value_mapM, Checked.value_mapM]
  exact ha.fit.regularity_mirrorIndices

section Both

variable (h : a.Aligned b) (ha : a.Mirrorable d) (hb : b.Mirrorable d)

include h ha hb

theorem offsets_mirror :
    offsets (a.mirror d).directions (a.mirror d).indices (b.mirror d).indices =
      offsets a.directions a.indices b.indices := by
  have hfit := hb.fit
  rw [directions_mirror, indices_mirror, indices_mirror]
  rw [← h.dimensions] at hfit ⊢
  exact ha.fit.offsets_mirrorIndices hfit ha.length_directions

theorem order_mirror : (a.mirror d).order (b.mirror d) = a.order b := by
  unfold order
  rw [offsets_mirror h ha hb]

theorem value_samePoint_mirror :
    ((a.mirror d).samePoint (b.mirror d)).run.value = (a.samePoint b).run.value := by
  have hfit := hb.fit
  rw [h.value_samePoint, (h.mirror d).value_samePoint, function_mirror, function_mirror,
    indices_mirror, indices_mirror]
  rw [← h.dimensions] at hfit ⊢
  rw [ha.fit.isZero_difference_mirrorIndices hfit]

theorem value_comes_mirror (side : Ordering) (tie : Bool) :
    (Scope.comes side tie (a.mirror d) (b.mirror d)).run.value =
      (Scope.comes side tie a b).run.value := by
  unfold Scope.comes
  rw [Analysis.value_bind_of_ok (compare?_eq_ok.2 ⟨h, rfl⟩),
    Analysis.value_bind_of_ok (compare?_eq_ok.2 ⟨h.mirror d, rfl⟩), order_mirror h ha hb]
  split
  · rfl
  · split
    · rfl
    · rw [Analysis.value_bind, Analysis.value_bind, value_samePoint_mirror h ha hb]

theorem link_mirror (kind : DependenceKind) :
    Dependence.link kind (a.mirror d) (b.mirror d) = (Dependence.link kind a b).mirror d := by
  have hirregular (e : Dimension) :
      (Dependence.isIrregularAlong (a.mirror d) (b.mirror d) e).value =
        (Dependence.isIrregularAlong a b e).value := by
    unfold Dependence.isIrregularAlong
    simp only [Checked.value_bind, Checked.value_pure, value_regularity_mirror ha,
      value_regularity_mirror hb, dimensions_mirror]
  unfold Dependence.link Dependence.mirror
  rw [offsets_mirror h ha hb, dimensions_mirror]
  simp only [hirregular]

end Both

end TimedAccess

/-- In the second space the loop over `d` is turned around, and all other loops are as they were. -/
def IterationSpace.Flipped (d : Dimension) (s t : IterationSpace) : Prop :=
  ∀ e, t.direction e = if e.root = d then (s.direction e).flip else s.direction e

namespace Reference

variable {d : Dimension} {r : Reference} {space space' : IterationSpace}

theorem Mirrorable.ofReference (h : r.Mirrorable d) (space : IterationSpace) (t : Nat) (i : Bool)
    (mode : AccessMode) : (TimedAccess.ofReference space t i mode r).Mirrorable d where
  length_directions := List.length_map _
  fit := h.fit

theorem Mirrorable.ofReference_mirror (h : r.Mirrorable d) (hd : d.root = d)
    (hspace : space.Flipped d space') (t : Nat) (i : Bool) (mode : AccessMode) :
    TimedAccess.ofReference space' t i mode (r.mirror d) =
      (TimedAccess.ofReference space t i mode r).mirror d := by
  have hdirections : r.function.dimensions.map space'.direction =
      Expr.flipAlong d r.function.dimensions (r.function.dimensions.map space.direction) := by
    unfold Expr.flipAlong
    rw [List.zipWith_map_right, List.zipWith_self]
    apply List.map_congr_left
    intro e he
    by_cases hed : e = d
    · rw [hspace, if_pos hed, hed, if_pos hd]
    · rw [hspace, if_neg hed, if_neg fun h' => hed (h.root e he h')]
  exact congrArg (fun dirs => TimedAccess.mk (.ofReference mode (r.mirror d)) t dirs i) hdirections

end Reference

section Lists

variable {α β γ δ : Type} {R : α → β → Prop} {as : List α} {bs : List β} {φ : γ → δ}

theorem perm_flatMap_of_forall₂ {f : α → List γ} {g : β → List δ} (h : List.Forall₂ R as bs)
    (hfg : ∀ a ∈ as, ∀ b, R a b → (g b).Perm ((f a).map φ)) :
    (bs.flatMap g).Perm ((as.flatMap f).map φ) := by
  induction h with
  | nil => exact .nil
  | cons hab _ ih =>
    rw [List.forall_mem_cons] at hfg
    rw [List.flatMap_cons, List.flatMap_cons, List.map_append]
    exact (hfg.1 _ hab).append (ih hfg.2)

theorem forall₂_zipIdx (h : List.Forall₂ R as bs) (n : Nat) :
    List.Forall₂ (fun a b => R a.1 b.1 ∧ a.2 = b.2) (as.zipIdx n) (bs.zipIdx n) := by
  induction h generalizing n with
  | nil => exact .nil
  | cons hab _ ih => exact .cons ⟨hab, rfl⟩ (ih (n + 1))

end Lists

namespace Equation

variable {d : Dimension} {eq : Equation} {space space' : IterationSpace}

theorem perm_timedReads_mirror (hd : d.root = d) (h : ∀ r ∈ eq.references, r.Mirrorable d)
    (hspace : space.Flipped d space') (t : Nat) :
    ((eq.mirror d).timedReads space' t).Perm
      ((eq.timedReads space t).map (TimedAccess.mirror d)) := by
  have hwritten : (if eq.isIncrement then (eq.mirror d).write?.toList else []) =
      (if eq.isIncrement then eq.write?.toList else []).map (Reference.mirror d) := by
    rw [write?_mirror]
    split
    · exact Option.toList_map
    · rfl
  have hmem : ∀ r ∈ eq.reads ++ (if eq.isIncrement then eq.write?.toList else []),
      r ∈ eq.references := by
    intro r hr
    rcases List.mem_append.1 hr with hr | hr
    · exact List.mem_append_right _ hr
    · split at hr
      · exact List.mem_append_left _ hr
      · cases hr
  have hperm := (perm_reads_mirror h).append_right
    ((if eq.isIncrement then eq.write?.toList else []).map (Reference.mirror d))
  rw [← List.map_append, ← hwritten] at hperm
  have hreads : (eq.mirror d).timedReads space' t =
      ((eq.mirror d).reads ++ if eq.isIncrement then (eq.mirror d).write?.toList else []).map
        (.ofReference space' t eq.isIncrement .read) := rfl
  rw [hreads]
  apply (hperm.map _).trans
  rw [List.map_map, timedReads, List.map_map]
  apply List.Perm.of_eq
  apply List.map_congr_left
  intro r hr
  exact (h r (hmem r hr)).ofReference_mirror hd hspace t eq.isIncrement .read

theorem timedWrites_mirror (hd : d.root = d) (h : ∀ r ∈ eq.references, r.Mirrorable d)
    (hspace : space.Flipped d space') (t : Nat) :
    (eq.mirror d).timedWrites space' t = (eq.timedWrites space t).map (TimedAccess.mirror d) := by
  unfold timedWrites
  rw [write?_mirror]
  cases hw : eq.write? with
  | none => rfl
  | some w =>
    have hmem : w ∈ eq.references := List.mem_append_left _ (by simp [hw])
    have hmirror := (h w hmem).ofReference_mirror hd hspace t eq.isIncrement .write
    exact congrArg List.singleton hmirror

end Equation

namespace AccessMap

theorem isSome_find?_ofList (as : List TimedAccess) (f : GridFunction) :
    (OrdMap.find? (ofList as) f).isSome = true ↔ ∃ a ∈ as, a.function = f := by
  have hfold (m : AccessMap) : (OrdMap.find? (as.foldl push m) f).isSome = true ↔
      (OrdMap.find? m f).isSome = true ∨ ∃ a ∈ as, a.function = f := by
    induction as generalizing m with
    | nil => simp
    | cons a as ih =>
      rw [List.foldl_cons, ih, push, OrdMap.find?_alter]
      by_cases hf : a.function = f
      · simp [hf]
      · simp [hf]
  unfold ofList
  rw [hfold]
  simp

structure Mirrors (d : Dimension) (m m' : AccessMap) : Prop where
  isSome_find? : ∀ f, (OrdMap.find? m f).isSome = (OrdMap.find? m' f).isSome
  perm : ∀ f, (m'.of f).Perm ((m.of f).map (TimedAccess.mirror d))

theorem Mirrors.forall₂_entries {d : Dimension} {m m' : AccessMap} (h : m.Mirrors d m') :
    List.Forall₂ (fun e e' => e.1 = e'.1 ∧ e'.2.Perm (e.2.map (TimedAccess.mirror d)))
      m.entries m'.entries := by
  refine OrdMap.forall₂_entries (R := fun as as' => as'.Perm (as.map (TimedAccess.mirror d)))
    h.isSome_find? ?_
  intro f as as' has has'
  have hperm := h.perm f
  unfold of at hperm
  rwa [has, has'] at hperm

theorem mirrors_ofList {d : Dimension} {as as' : List TimedAccess}
    (h : as'.Perm (as.map (TimedAccess.mirror d))) : (ofList as).Mirrors d (ofList as') where
  isSome_find? f := by
    rw [Bool.eq_iff_iff, isSome_find?_ofList, isSome_find?_ofList]
    simp [h.mem_iff]
  perm f := by
    rw [of_ofList, of_ofList]
    have hfilter := h.filter (·.function = f)
    rw [List.filter_map] at hfilter
    exact hfilter

end AccessMap

namespace Scope

variable {d : Dimension}

section Pairs

variable {reads writes reads' writes' : AccessMap}

theorem perm_pairs {pair : TimedAccess → TimedAccess → TimedAccess × TimedAccess}
    (hpair : ∀ a b, pair (a.mirror d) (b.mirror d) =
      (pair a b).map (TimedAccess.mirror d) (TimedAccess.mirror d))
    {as bs as' bs' : List TimedAccess} (ha : as'.Perm (as.map (TimedAccess.mirror d)))
    (hb : bs'.Perm (bs.map (TimedAccess.mirror d))) :
    (as'.flatMap fun a => bs'.map (pair a)).Perm ((as.flatMap fun a => bs.map (pair a)).map
      (Prod.map (TimedAccess.mirror d) (TimedAccess.mirror d))) := by
  apply (ha.flatMap_right _).trans
  rw [List.flatMap_map, List.map_flatMap]
  apply List.Perm.flatMap_left
  intro a _
  apply (hb.map _).trans
  rw [List.map_map, List.map_map]
  exact .of_eq (List.map_congr_left fun b _ => hpair a b)

theorem perm_writeReadPairs (hreads : reads.Mirrors d reads') (hwrites : writes.Mirrors d writes') :
    (writeReadPairs reads' writes').Perm ((writeReadPairs reads writes).map
      (Prod.map (TimedAccess.mirror d) (TimedAccess.mirror d))) := by
  apply perm_flatMap_of_forall₂ hwrites.forall₂_entries
  intro e _ e' hee'
  rw [← hee'.1]
  exact perm_pairs (fun _ _ => rfl) hee'.2 (hreads.perm e.1)

theorem perm_writeWritePairs (hwrites : writes.Mirrors d writes') :
    (writeWritePairs writes').Perm ((writeWritePairs writes).map
      (Prod.map (TimedAccess.mirror d) (TimedAccess.mirror d))) := by
  apply perm_flatMap_of_forall₂ hwrites.forall₂_entries
  intro e _ e' hee'
  exact perm_pairs (fun _ _ => rfl) hee'.2 hee'.2

end Pairs

section Tests

variable {a b : TimedAccess} (h : a.Aligned b) (ha : a.Mirrorable d) (hb : b.Mirrorable d)

include h ha hb

theorem value_isFlow_mirror :
    (isFlow (a.mirror d) (b.mirror d)).run.value = (isFlow a b).run.value := by
  rw [isFlow_eq_comes, isFlow_eq_comes]
  exact TimedAccess.value_comes_mirror h.symm hb ha ..

theorem value_isAnti_mirror :
    (isAnti (a.mirror d) (b.mirror d)).run.value = (isAnti a b).run.value := by
  rw [isAnti_eq_comes, isAnti_eq_comes]
  exact TimedAccess.value_comes_mirror h ha hb ..

theorem value_isOutput_mirror :
    (isOutput (a.mirror d) (b.mirror d)).run.value = (isOutput a b).run.value := by
  rw [isOutput_eq_comes, isOutput_eq_comes]
  exact TimedAccess.value_comes_mirror h ha hb ..

end Tests

section Gather

variable {kind : DependenceKind} {test : TimedAccess → TimedAccess → Analysis Bool}
variable {ps ps' : List (TimedAccess × TimedAccess)} {ds ds' : List Dependence}

theorem gather_eq_map (h : (gather kind test ps).run.value = .ok ds) :
    ds = (ps.filter (passes test)).map fun p => Dependence.link kind p.1 p.2 := by
  obtain ⟨hends, -, hbetween⟩ := gather_eq_ok h
  have hlink : ∀ d ∈ ds, Dependence.link kind d.source d.sink = d := fun d hd =>
    (Dependence.between_eq_ok_iff.1 (hbetween d hd)).2.symm
  rw [← hends, List.map_map]
  exact ((List.map_congr_left hlink).trans (List.map_id _)).symm

theorem perm_gather_mirror (h : (gather kind test ps).run.value = .ok ds)
    (h' : (gather kind test ps').run.value = .ok ds')
    (hps : ps'.Perm (ps.map (Prod.map (TimedAccess.mirror d) (TimedAccess.mirror d))))
    (hboth : ∀ p ∈ ps, p.1.Aligned p.2 ∧ p.1.Mirrorable d ∧ p.2.Mirrorable d)
    (htest : ∀ a b, a.Aligned b → a.Mirrorable d → b.Mirrorable d →
      (test (a.mirror d) (b.mirror d)).run.value = (test a b).run.value) :
    ds'.Perm (ds.map (Dependence.mirror d)) := by
  have hpasses : ∀ p ∈ ps,
      (passes test ∘ Prod.map (TimedAccess.mirror d) (TimedAccess.mirror d)) p = passes test p := by
    intro p hp
    obtain ⟨haligned, hsource, hsink⟩ := hboth p hp
    rw [Function.comp_apply, passes, passes, Prod.map_fst, Prod.map_snd,
      htest _ _ haligned hsource hsink]
  rw [gather_eq_map h, gather_eq_map h']
  apply ((hps.filter _).map _).trans
  rw [List.filter_map, List.map_map, List.map_map, List.filter_congr hpasses]
  apply List.Perm.of_eq
  apply List.map_congr_left
  intro p hp
  obtain ⟨haligned, hsource, hsink⟩ := hboth p (List.mem_of_mem_filter hp)
  exact TimedAccess.link_mirror haligned hsource hsink kind

end Gather

structure Mirrors (d : Dimension) (s s' : Scope) : Prop where
  reads : s.reads.Mirrors d s'.reads
  dependences : s'.dependences.Perm (s.dependences.map (Dependence.mirror d))

section Equations

variable {eqs eqs' : List (Equation × IterationSpace)} {s : Scope} {f : GridFunction}
variable {a : TimedAccess}

theorem mirrorable_of_mem_reads (hrefs : ∀ e ∈ eqs, ∀ r ∈ e.1.references, r.Mirrorable d)
    (hs : (ofEquations eqs).run.value = .ok s) (ha : a ∈ s.reads.of f) : a.Mirrorable d := by
  obtain ⟨e, he, r, hr, -, heq⟩ := exists_read hs ha
  rw [heq]
  exact (hrefs e (List.mem_of_getElem? he) r hr).ofReference ..

theorem mirrorable_of_mem_writes (hrefs : ∀ e ∈ eqs, ∀ r ∈ e.1.references, r.Mirrorable d)
    (hs : (ofEquations eqs).run.value = .ok s) (ha : a ∈ s.writes.of f) : a.Mirrorable d := by
  obtain ⟨e, r, he, hr, -, heq⟩ := exists_write hs ha
  rw [heq]
  have hmem : r ∈ e.1.references := List.mem_append_left _ (by simp [hr])
  exact (hrefs e (List.mem_of_getElem? he) r hmem).ofReference ..

theorem mirrors_reads (hd : d.root = d) (hrefs : ∀ e ∈ eqs, ∀ r ∈ e.1.references, r.Mirrorable d)
    (heqs : List.Forall₂ (fun e e' => e'.1 = e.1.mirror d ∧ e.2.Flipped d e'.2) eqs eqs') :
    AccessMap.Mirrors d (.ofList (eqs.zipIdx.flatMap fun e => e.1.1.timedReads e.1.2 e.2))
      (.ofList (eqs'.zipIdx.flatMap fun e => e.1.1.timedReads e.1.2 e.2)) := by
  apply AccessMap.mirrors_ofList
  apply perm_flatMap_of_forall₂ (forall₂_zipIdx heqs 0)
  rintro e he e' ⟨⟨heq, hflipped⟩, ht⟩
  rw [heq, ← ht]
  exact Equation.perm_timedReads_mirror hd (hrefs e.1 (List.fst_mem_of_mem_zipIdx he)) hflipped _

theorem mirrors_writes (hd : d.root = d) (hrefs : ∀ e ∈ eqs, ∀ r ∈ e.1.references, r.Mirrorable d)
    (heqs : List.Forall₂ (fun e e' => e'.1 = e.1.mirror d ∧ e.2.Flipped d e'.2) eqs eqs') :
    AccessMap.Mirrors d (.ofList (eqs.zipIdx.flatMap fun e => e.1.1.timedWrites e.1.2 e.2))
      (.ofList (eqs'.zipIdx.flatMap fun e => e.1.1.timedWrites e.1.2 e.2)) := by
  apply AccessMap.mirrors_ofList
  apply perm_flatMap_of_forall₂ (forall₂_zipIdx heqs 0)
  rintro e he e' ⟨⟨heq, hflipped⟩, ht⟩
  rw [heq, ← ht,
    Equation.timedWrites_mirror hd (hrefs e.1 (List.fst_mem_of_mem_zipIdx he)) hflipped]

theorem perm_dependences {s' : Scope}
    (hrefs : ∀ e ∈ eqs, ∀ r ∈ e.1.references, r.Mirrorable d)
    (hs : (ofEquations eqs).run.value = .ok s) (hs' : (ofEquations eqs').run.value = .ok s')
    (hreads : s.reads.Mirrors d s'.reads) (hwrites : s.writes.Mirrors d s'.writes) :
    s'.dependences.Perm (s.dependences.map (Dependence.mirror d)) := by
  obtain ⟨-, -, hgathered⟩ := ofEquations_eq_ok hs
  obtain ⟨-, -, hgathered'⟩ := ofEquations_eq_ok hs'
  have hpairs := perm_writeReadPairs hreads hwrites
  have hswapped : ((writeReadPairs s'.reads s'.writes).map Prod.swap).Perm
      (((writeReadPairs s.reads s.writes).map Prod.swap).map
        (Prod.map (TimedAccess.mirror d) (TimedAccess.mirror d))) := by
    have hswap := hpairs.map Prod.swap
    rw [List.map_map] at hswap ⊢
    exact hswap
  have hflow : ∀ p ∈ writeReadPairs s.reads s.writes,
      p.1.Aligned p.2 ∧ p.1.Mirrorable d ∧ p.2.Mirrorable d := by
    rintro ⟨w, r⟩ hp
    obtain ⟨f, hw, hr⟩ := mem_writeReadPairs.1 hp
    exact ⟨(hgathered.aligned_write_read hw hr).symm, mirrorable_of_mem_writes hrefs hs hw,
      mirrorable_of_mem_reads hrefs hs hr⟩
  have hanti : ∀ p ∈ (writeReadPairs s.reads s.writes).map Prod.swap,
      p.1.Aligned p.2 ∧ p.1.Mirrorable d ∧ p.2.Mirrorable d := by
    intro p hp
    obtain ⟨q, hq, rfl⟩ := List.mem_map.1 hp
    obtain ⟨haligned, hsource, hsink⟩ := hflow q hq
    exact ⟨haligned.symm, hsink, hsource⟩
  have houtput : ∀ p ∈ writeWritePairs s.writes,
      p.1.Aligned p.2 ∧ p.1.Mirrorable d ∧ p.2.Mirrorable d := by
    rintro ⟨w, x⟩ hp
    obtain ⟨f, hw, hx⟩ := mem_writeWritePairs.1 hp
    exact ⟨hgathered.aligned_write_write hw hx, mirrorable_of_mem_writes hrefs hs hw,
      mirrorable_of_mem_writes hrefs hs hx⟩
  unfold dependences
  rw [List.map_append, List.map_append]
  apply List.Perm.append
  · apply List.Perm.append
    · exact perm_gather_mirror hgathered.flow hgathered'.flow hpairs hflow fun _ _ =>
        value_isFlow_mirror
    · exact perm_gather_mirror hgathered.anti hgathered'.anti hswapped hanti fun _ _ =>
        value_isAnti_mirror
  · exact perm_gather_mirror hgathered.output hgathered'.output (perm_writeWritePairs hwrites)
      houtput fun _ _ => value_isOutput_mirror

theorem exists_mirrors (hd : d.root = d)
    (hrefs : ∀ e ∈ eqs, ∀ r ∈ e.1.references, r.Mirrorable d)
    (heqs : List.Forall₂ (fun e e' => e'.1 = e.1.mirror d ∧ e.2.Flipped d e'.2) eqs eqs')
    (hs : (ofEquations eqs).run.value = .ok s) :
    ∃ s', (ofEquations eqs').run.value = .ok s' ∧ s.Mirrors d s' := by
  obtain ⟨hreads, hwrites, hgathered⟩ := ofEquations_eq_ok hs
  have hmreads := mirrors_reads hd hrefs heqs
  have hmwrites := mirrors_writes hd hrefs heqs
  rw [← hreads] at hmreads
  rw [← hwrites] at hmwrites
  have hok : ∃ s', (ofEquations eqs').run.value = .ok s' := by
    apply exists_ofAccesses
    · intro f w' hw' r' hr'
      obtain ⟨w, hw, rfl⟩ := List.mem_map.1 ((hmwrites.perm f).subset hw')
      obtain ⟨r, hr, rfl⟩ := List.mem_map.1 ((hmreads.perm f).subset hr')
      exact (hgathered.aligned_write_read hw hr).symm.mirror d
    · intro f w' hw' x' hx'
      obtain ⟨w, hw, rfl⟩ := List.mem_map.1 ((hmwrites.perm f).subset hw')
      obtain ⟨x, hx, rfl⟩ := List.mem_map.1 ((hmwrites.perm f).subset hx')
      exact (hgathered.aligned_write_write hw hx).mirror d
  obtain ⟨s', hs'⟩ := hok
  obtain ⟨hreads', hwrites', -⟩ := ofEquations_eq_ok hs'
  rw [← hreads'] at hmreads
  rw [← hwrites'] at hmwrites
  exact ⟨s', hs', hmreads, perm_dependences hrefs hs hs' hmreads hmwrites⟩

end Equations

end Scope

end Stencil
