import Stencil.Proofs.Scope.Classify
import Stencil.Proofs.Scope.Part

/-!
This module contains when the analysis of equations stays in range. The order of the equations does
not matter: two accesses are compared in any case, and a dependence that is there in one order only
is between accesses to the same point, which are no distance apart. So if a program is analysed in
range, then so is every part of it, in any order.
-/

namespace Stencil

theorem Affine.eq_of_toInt?_sub {a b : Affine} (ha : a.Reduced) (hb : b.Reduced)
    (h : (a.sub b).value.toInt? = some 0) : a = b := by
  unfold toInt? toConstant? at h
  split at h
  · next hconstant =>
    rw [isConstant_iff_coeff (reduced_sub ha b)] at hconstant
    rw [Option.bind_some, Fraction.toInt?_eq_some_iff, constant_sub, Int.cast_zero] at h
    apply ext_coeff ha hb (sub_eq_zero.1 h)
    intro s
    rw [← sub_eq_zero, ← coeff_sub]
    exact hconstant s
  · cases h

namespace Expr

theorem Canonical.fits_difference_swap {x y : Expr} (hx : x.Canonical) (hy : y.Canonical)
    (hzero : (x.difference y).value.toInt? = some 0) (hfits : (x.difference y).fits = true) :
    (y.difference x).fits = true := by
  by_cases hxy : x = y
  · rw [hxy, difference_self]
    rfl
  · by_cases hnone : (Affine.ofExpr x).value = none ∨ (Affine.ofExpr y).value = none
    · rw [hx.toInt?_difference hy hxy hnone] at hzero
      cases hzero
    · obtain ⟨⟨a, ha⟩, b, hb⟩ := exists_affine_of_not_none hnone
      rw [toInt?_difference_of_affine ha hb] at hzero
      obtain rfl := Affine.eq_of_toInt?_sub (Affine.reduced_ofExpr x ha)
        (Affine.reduced_ofExpr y hb) hzero
      unfold difference at hfits ⊢
      rw [if_neg hxy] at hfits
      rw [if_neg (Ne.symm hxy)]
      simp only [Checked.fits_bind, ha, hb, Bool.and_eq_true] at hfits ⊢
      exact ⟨hfits.2.1, hfits.1, hfits.2.2⟩

theorem eq_zero_of_toInt? {e : Expr} (h : e.toInt? = some 0) : e = .ofInt 0 := by
  cases e with
  | num q => rw [Fraction.toInt?_eq_some_iff.1 h, ofInt]
  | _ => cases h

end Expr

namespace TimedAccess

variable {a b : TimedAccess}

theorem fits_check (a b : TimedAccess) : (a.check b).run.fits = true := by
  unfold check Access.checkDimensions
  apply Analysis.fits_bind
  · split <;> rfl
  · intro u _
    split <;> rfl

theorem fits_distance (h : a.Aligned b) :
    (a.distance b).run.fits = true ↔
      ∀ e ∈ (a.indices.zip b.indices).zip a.directions,
        (difference e.1.1 e.1.2 e.2).fits = true := by
  have hcheck : (a.check b).run.value = .ok () := check_eq_ok.2 h
  unfold distance
  rw [Analysis.fits_bind_of_ok hcheck, fits_check, Bool.true_and, Analysis.fits_lift,
    Checked.fits_mapM]

theorem toInt?_of_order_eq (h : a.order b = some .eq) :
    ∀ e ∈ (a.indices.zip b.indices).zip a.directions,
      (difference e.1.1 e.1.2 e.2).value.toInt? = some 0 := by
  have hzero := OffsetVector.sign?_eq_eq_iff.1 h
  unfold OffsetVector.isZero at hzero
  rw [offsets_eq_map, List.all_map, List.all_eq_true] at hzero
  exact fun e he => beq_iff_eq.1 (hzero e he)

theorem Matched.fits_distance_swap (h : a.Matched b) (ha : ∀ i ∈ a.indices, i.Canonical)
    (hb : ∀ i ∈ b.indices, i.Canonical) (horder : a.order b = some .eq)
    (hfits : (a.distance b).run.fits = true) : (b.distance a).run.fits = true := by
  have hswap : b.indices.zip a.indices = (a.indices.zip b.indices).map Prod.swap :=
    (List.zip_swap ..).symm
  rw [fits_distance h.toAligned] at hfits
  rw [fits_distance h.toAligned.symm, hswap, List.zip_map_left, List.forall_mem_map, ← h.directions]
  rintro ⟨⟨x, y⟩, d⟩ hmem
  have hzero := toInt?_of_order_eq horder _ hmem
  have hrange := hfits _ hmem
  obtain ⟨hx, hy⟩ := List.of_mem_zip (List.of_mem_zip hmem).1
  cases d with
  | forward => exact (ha x hx).fits_difference_swap (hb y hy) hzero hrange
  | backward => exact (hb y hy).fits_difference_swap (ha x hx) hzero hrange

end TimedAccess

namespace Dependence

variable {kind : DependenceKind} {a b : TimedAccess}

theorem firstCause_of_isZero {ds : List Dimension} {v : OffsetVector} (h : v.isZero = true) :
    firstCause ds v = none := by
  unfold firstCause
  rw [Option.map_eq_none_iff, List.find?_eq_none]
  intro e he
  have hzero := List.all_eq_true.1 h e.2 (List.of_mem_zip he).2
  rw [beq_iff_eq.1 hzero]
  simp

theorem fits_between_iff (h : a.Aligned b) :
    (between kind a b).run.fits = true ↔ (a.distance b).run.fits = true ∧
      ∀ d, firstCause a.dimensions (TimedAccess.offsets a.directions a.indices b.indices) = some d →
        (isIrregularAlong a b d).fits = true := by
  unfold between
  rw [Analysis.fits_bind_of_ok (TimedAccess.distance_eq_ok.2 ⟨h, rfl⟩), Bool.and_eq_true]
  apply and_congr_right
  intro _
  dsimp only
  split
  · next cause hcause =>
    rw [Analysis.fits_bind_of_ok (Analysis.value_lift _), Analysis.fits_lift]
    simp [hcause]
  · next hcause => simp [hcause]

theorem fits_between_of_order_eq (h : a.Aligned b) (horder : a.order b = some .eq)
    (hfits : (a.distance b).run.fits = true) : (between kind a b).run.fits = true := by
  rw [fits_between_iff h, firstCause_of_isZero (OffsetVector.sign?_eq_eq_iff.1 horder)]
  exact ⟨hfits, fun d hd => by cases hd⟩

theorem fits_between_retimed (h : a.Aligned b) (φ ψ : Nat → Nat) :
    (between kind (a.retimed φ) (b.retimed ψ)).run.fits = true ↔
      (between kind a b).run.fits = true := by
  have hretimed : (a.retimed φ).Aligned (b.retimed ψ) := ⟨h.dimensions, h.directions, h.rank⟩
  rw [fits_between_iff h, fits_between_iff hretimed]
  rfl

theorem fits_isCarried_of_isZero {d : Dependence} (h : d.distance.isZero = true) :
    d.isCarried.fits = true := by
  unfold isCarried OffsetVector.compareScalar?
  rw [Checked.fits_bind, Checked.fits_pure, Bool.and_true, Checked.fits_bind, Checked.fits_pure,
    Bool.and_true, Checked.fits_mapM]
  intro e he
  rw [Expr.eq_zero_of_toInt? (beq_iff_eq.1 (List.all_eq_true.1 h e he)), Expr.difference_self]
  rfl

end Dependence

namespace Scope

structure Examined (kind : DependenceKind) (test : TimedAccess → TimedAccess → Analysis Bool)
    (a b : TimedAccess) : Prop where
  tested : (test a b).run.fits = true
  built : (test a b).run.value = .ok true → (Dependence.between kind a b).run.fits = true

theorem fits_gather {kind : DependenceKind} {test : TimedAccess → TimedAccess → Analysis Bool}
    {ps : List (TimedAccess × TimedAccess)} {ds : List Dependence}
    (h : (gather kind test ps).run.value = .ok ds) :
    (gather kind test ps).run.fits = true ↔ ∀ p ∈ ps, Examined kind test p.1 p.2 := by
  induction ps generalizing ds with
  | nil => simp [gather]
  | cons p ps ih =>
    obtain ⟨a, b⟩ := p
    rw [gather, Analysis.value_bind_eq_ok] at h
    obtain ⟨t, ht, h⟩ := h
    rw [gather, Analysis.fits_bind_of_ok ht, Bool.and_eq_true, List.forall_mem_cons]
    cases t with
    | true =>
      simp only [if_true, Analysis.value_bind_eq_ok] at h ⊢
      obtain ⟨d, hd, rest, hrest, -⟩ := h
      rw [Analysis.fits_bind_of_ok hd, Analysis.fits_bind_of_ok hrest, Bool.and_eq_true,
        Bool.and_eq_true, ih hrest]
      constructor
      · rintro ⟨htest, hbetween, hps, -⟩
        exact ⟨⟨htest, fun _ => hbetween⟩, hps⟩
      · rintro ⟨hp, hps⟩
        exact ⟨hp.tested, hp.built ht, hps, rfl⟩
    | false =>
      simp only [Bool.false_eq_true, if_false] at h ⊢
      rw [ih h]
      refine and_congr_left fun _ => ⟨fun htest => ⟨htest, fun htrue => ?_⟩, Examined.tested⟩
      rw [ht] at htrue
      cases htrue

variable {eqs part : List (Equation × IterationSpace)} {s s' : Scope} {f : GridFunction}
variable {a b : TimedAccess} {d : Dependence}

theorem fits_ofEquations (h : (ofEquations eqs).run.value = .ok s) :
    (ofEquations eqs).run.fits = true ↔
      (∀ f, ∀ w ∈ s.writes.of f, ∀ r ∈ s.reads.of f,
        Examined .flow isFlow w r ∧ Examined .anti isAnti r w) ∧
      ∀ f, ∀ w ∈ s.writes.of f, ∀ w' ∈ s.writes.of f, Examined .output isOutput w w' := by
  obtain ⟨hreads, hwrites, hs⟩ := ofEquations_eq_ok h
  have hgather : (ofEquations eqs).run.fits = (ofAccesses s.reads s.writes).run.fits := by
    rw [hreads, hwrites]
    rfl
  rw [hgather, ofAccesses, Analysis.fits_bind_of_ok hs.flow, Analysis.fits_bind_of_ok hs.anti,
    Analysis.fits_bind_of_ok hs.output, Bool.and_eq_true, Bool.and_eq_true, Bool.and_eq_true,
    fits_gather hs.flow, fits_gather hs.anti, fits_gather hs.output]
  constructor
  · rintro ⟨hflow, hanti, houtput, -⟩
    rw [List.forall_mem_map] at hanti
    refine ⟨fun f w hw r hr => ?_, fun f w hw w' hw' => ?_⟩
    · have hmem := mem_writeReadPairs.2 ⟨f, hw, hr⟩
      exact ⟨hflow _ hmem, hanti _ hmem⟩
    · exact houtput _ (mem_writeWritePairs.2 ⟨f, hw, hw'⟩)
  · rintro ⟨hread, hwrite⟩
    refine ⟨?_, ?_, ?_, rfl⟩
    · rintro ⟨w, r⟩ hp
      obtain ⟨f, hw, hr⟩ := mem_writeReadPairs.1 hp
      exact (hread f w hw r hr).1
    · rw [List.forall_mem_map]
      rintro ⟨w, r⟩ hp
      obtain ⟨f, hw, hr⟩ := mem_writeReadPairs.1 hp
      exact (hread f w hw r hr).2
    · rintro ⟨w, w'⟩ hp
      obtain ⟨f, hw, hw'⟩ := mem_writeWritePairs.1 hp
      exact hwrite f w hw w' hw'

theorem fits_between (h : (ofEquations eqs).run.value = .ok s)
    (hfits : (ofEquations eqs).run.fits = true) (hd : d ∈ s.dependences) :
    (Dependence.between d.kind d.source d.sink).run.fits = true := by
  obtain ⟨-, -, hs⟩ := ofEquations_eq_ok h
  obtain ⟨hread, hwrite⟩ := (fits_ofEquations h).1 hfits
  have hdepends : s.Depends d.kind d.source d.sink := ⟨d, hd, rfl, rfl, rfl⟩
  cases hkind : d.kind with
  | flow =>
    rw [hkind, hs.depends_flow_iff] at hdepends
    obtain ⟨⟨f, hw, hr⟩, htest⟩ := hdepends
    exact (hread f _ hw _ hr).1.built htest
  | anti =>
    rw [hkind, hs.depends_anti_iff] at hdepends
    obtain ⟨⟨f, hw, hr⟩, htest⟩ := hdepends
    exact (hread f _ hw _ hr).2.built htest
  | output =>
    rw [hkind, hs.depends_output_iff] at hdepends
    obtain ⟨⟨f, hw, hw'⟩, htest⟩ := hdepends
    exact (hwrite f _ hw _ hw').built htest

theorem canonical_indices (h : (ofEquations eqs).run.value = .ok s)
    (hrefs : ∀ e ∈ eqs, ∀ r ∈ e.1.references, r.WellFormed) (ha : a ∈ s.accesses f) :
    ∀ i ∈ a.indices, i.Canonical := by
  obtain ⟨e, he, r, hr, -, heq⟩ := exists_access h ha
  rw [heq]
  exact (hrefs e (List.mem_of_getElem? he) r hr).canonical

section Retimed

variable {side : Ordering} {tie tie' : Bool} {kind : DependenceKind}

theorem fits_comes (h : a.Matched b) :
    (comes side tie a b).run.fits = (comes side tie' a b).run.fits := by
  unfold comes
  rw [Analysis.fits_bind_of_ok h.value_compare?, Analysis.fits_bind_of_ok h.value_compare?]
  congr 1
  split
  · rfl
  · split
    · rfl
    · rw [Analysis.fits_bind_of_ok h.value_samePoint, Analysis.fits_bind_of_ok h.value_samePoint]
      rfl

theorem fits_distance_of_comes (h : (comes side tie a b).run.fits = true) :
    (a.distance b).run.fits = true := by
  unfold comes at h
  have hcompare := Analysis.fits_of_fits_bind h
  unfold TimedAccess.compare? at hcompare
  exact Analysis.fits_of_fits_bind hcompare

/--
The accesses `x` and `y` are compared, and the dependence is from `a` to `b`, which are these
accesses or the swapped ones.
-/
theorem Examined.of_retimed {test : TimedAccess → TimedAccess → Analysis Bool}
    {x y : TimedAccess} (hpair : a = x ∧ b = y ∨ a = y ∧ b = x)
    (htest : ∀ φ ψ, ∃ tie, test (a.retimed φ) (b.retimed ψ) = comes side tie x y)
    (hmatched : x.Matched y) (hx : ∀ i ∈ x.indices, i.Canonical)
    (hy : ∀ i ∈ y.indices, i.Canonical) {φ ψ : Nat → Nat}
    (h : Examined kind test (a.retimed φ) (b.retimed ψ)) : Examined kind test a b := by
  obtain ⟨tie, htie⟩ := htest φ ψ
  obtain ⟨tie', htie'⟩ := htest id id
  have htie' : test a b = comes side tie' x y := htie'
  have haligned : a.Aligned b := by
    rcases hpair with ⟨rfl, rfl⟩ | ⟨rfl, rfl⟩
    · exact hmatched.toAligned
    · exact hmatched.toAligned.symm
  obtain ⟨hfits, hbetween⟩ := h
  rw [htie] at hfits hbetween
  constructor
  · rw [htie']
    exact (fits_comes hmatched).trans hfits
  · rw [htie', comes_iff hmatched]
    rw [comes_iff hmatched, Dependence.fits_between_retimed haligned] at hbetween
    rintro (hnone | hside | ⟨heq, -⟩)
    · exact hbetween (.inl hnone)
    · exact hbetween (.inr (.inl hside))
    · have hdistance := fits_distance_of_comes hfits
      rcases hpair with ⟨rfl, rfl⟩ | ⟨rfl, rfl⟩
      · exact Dependence.fits_between_of_order_eq haligned heq hdistance
      · apply Dependence.fits_between_of_order_eq haligned
        · rw [hmatched.order_swap, heq]
          rfl
        · exact hmatched.fits_distance_swap hx hy heq hdistance

end Retimed

section Subset

variable (hs : (ofEquations eqs).run.value = .ok s) (hs' : (ofEquations part).run.value = .ok s')
variable (hpart : ∀ e ∈ part, e ∈ eqs)
include hs hs' hpart

theorem exists_retimed_mem_reads (ha : a ∈ s'.reads.of f) :
    ∃ t, a.retimed (fun _ => t) ∈ s.reads.of f := by
  rw [mem_reads_iff hs'] at ha
  obtain ⟨hf, e, he, ha⟩ := ha
  obtain ⟨t, ht⟩ := List.mem_iff_getElem?.1 (hpart e (List.mem_of_getElem? he))
  refine ⟨t, (mem_reads_iff hs).2 ⟨hf, e, ht, ?_⟩⟩
  exact Equation.retimed_mem_timedReads (fun _ => t) ha

theorem exists_retimed_mem_writes (ha : a ∈ s'.writes.of f) :
    ∃ t, a.retimed (fun _ => t) ∈ s.writes.of f := by
  rw [mem_writes_iff hs'] at ha
  obtain ⟨hf, e, he, ha⟩ := ha
  obtain ⟨t, ht⟩ := List.mem_iff_getElem?.1 (hpart e (List.mem_of_getElem? he))
  refine ⟨t, (mem_writes_iff hs).2 ⟨hf, e, ht, ?_⟩⟩
  exact Equation.retimed_mem_timedWrites (fun _ => t) ha

variable (hrefs : ∀ e ∈ eqs, ∀ r ∈ e.1.references, r.WellFormed)
include hrefs

theorem fits_ofEquations_of_subset (hfits : (ofEquations eqs).run.fits = true) :
    (ofEquations part).run.fits = true := by
  have hrefs' e (he : e ∈ part) := hrefs e (hpart e he)
  have hcanonical {f : GridFunction} {a : TimedAccess} (ha : a ∈ s'.accesses f) :=
    canonical_indices hs' hrefs' ha
  rw [fits_ofEquations hs] at hfits
  rw [fits_ofEquations hs']
  constructor
  · intro f w hw r hr
    obtain ⟨t, ht⟩ := exists_retimed_mem_writes hs hs' hpart hw
    obtain ⟨u, hu⟩ := exists_retimed_mem_reads hs hs' hpart hr
    obtain ⟨hflow, hanti⟩ := hfits.1 f _ ht _ hu
    have hmatched := matched_write_read hs' hrefs' hw hr
    have hwrite := hcanonical (List.mem_append_left _ hw)
    have hread := hcanonical (List.mem_append_right _ hr)
    exact ⟨hflow.of_retimed (.inr ⟨rfl, rfl⟩) (fun φ ψ => ⟨_, isFlow_eq_comes⟩) hmatched hread
      hwrite, hanti.of_retimed (.inl ⟨rfl, rfl⟩) (fun φ ψ => ⟨_, isAnti_eq_comes⟩) hmatched hread
      hwrite⟩
  · intro f w hw w' hw'
    obtain ⟨t, ht⟩ := exists_retimed_mem_writes hs hs' hpart hw
    obtain ⟨u, hu⟩ := exists_retimed_mem_writes hs hs' hpart hw'
    have houtput := hfits.2 f _ ht _ hu
    exact houtput.of_retimed (.inl ⟨rfl, rfl⟩) (fun φ ψ => ⟨_, isOutput_eq_comes⟩)
      (matched_write_write hs' hrefs' hw hw') (hcanonical (List.mem_append_left _ hw))
      (hcanonical (List.mem_append_left _ hw'))

theorem fits_isCarried_of_subset (hcarried : ∀ d ∈ s.anti, d.isCarried.fits = true)
    (hd : d ∈ s'.anti) : d.isCarried.fits = true := by
  have hgathered := (ofEquations_eq_ok hs).2.2
  have hgathered' := (ofEquations_eq_ok hs').2.2
  have hrefs' e (he : e ∈ part) := hrefs e (hpart e he)
  have hmem : d ∈ s'.dependences ∧ d.kind = .anti := hgathered'.mem_dependences_iff.2 hd
  have hdepends : s'.Depends .anti d.source d.sink := ⟨d, hmem.1, hmem.2, rfl, rfl⟩
  have hlink := (Dependence.between_eq_ok_iff.1 (hgathered'.between_eq hmem.1)).2
  obtain ⟨⟨f, hw, hr⟩, htest⟩ := hgathered'.depends_anti_iff.1 hdepends
  have hmatched := matched_write_read hs' hrefs' hw hr
  obtain ⟨t, ht⟩ := exists_retimed_mem_writes hs hs' hpart hw
  obtain ⟨u, hu⟩ := exists_retimed_mem_reads hs hs' hpart hr
  rw [isAnti_iff hmatched] at htest
  have hwhole (horder : d.source.order d.sink = none ∨ d.source.order d.sink = some .gt) :
      d.isCarried.fits = true := by
    have hanti : s.Depends .anti (d.source.retimed fun _ => u) (d.sink.retimed fun _ => t) := by
      rw [hgathered.depends_anti_iff]
      refine ⟨⟨f, ht, hu⟩, ?_⟩
      rw [isAnti_iff (matched_write_read hs hrefs ht hu)]
      exact horder.imp id .inl
    obtain ⟨d', hd', hkind, hsource, hsink⟩ := hanti
    have hlink' := (Dependence.between_eq_ok_iff.1 (hgathered.between_eq hd')).2
    have hdistance : d.distance = d'.distance := by
      rw [hlink', hlink, hsource, hsink]
      rfl
    unfold Dependence.isCarried
    rw [hdistance]
    exact hcarried d' (hgathered.mem_dependences_iff.1 ⟨hd', hkind⟩)
  rcases htest with hnone | hgt | ⟨heq, -⟩
  · exact hwhole (.inl hnone)
  · exact hwhole (.inr hgt)
  · apply Dependence.fits_isCarried_of_isZero
    rw [hlink]
    exact OffsetVector.sign?_eq_eq_iff.1 heq

end Subset

end Scope

end Stencil
