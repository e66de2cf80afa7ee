import Stencil.Proofs.Affine.Arithmetic
import Stencil.Proofs.Scope.Range
import Stencil.Proofs.Scope.Uniform

/-!
This module contains the agreement of three questions about a dependence: whether its distance is
greater than zero or cannot be compared with it, whether some dimension is its cause, and whether
its distance is not zero. In general these differ, for a distance can be negative. The distances of
a scope never are, since a dependence goes from the access that comes last to the other one.
-/

namespace Stencil

namespace Affine

variable {a b : Affine}

theorem value_sub_zero (ha : a.Reduced) : (a.sub (ofConstant 0)).value = a := by
  apply ext_coeff (reduced_sub ha _) ha
  · simp [ofConstant]
  · simp

theorem fits_sub_zero (h : Fraction.isWords a.constant = true) :
    (a.sub (ofConstant 0)).fits = true := by
  have hneg : (ofConstant 0).neg = pure (ofConstant 0) := by decide +kernel
  rw [sub, hneg, pure_bind, add, Checked.fits_bind, ofConstant, Fraction.fits_add_zero.2 h]
  rfl

theorem isWords_coeff_sub (hfits : (a.sub b).fits = true)
    (ha : ∀ s, Fraction.isWords (a.coeff s) = true) (s : String) :
    Fraction.isWords ((a.sub b).value.coeff s) = true := by
  rw [sub, Checked.fits_bind, Bool.and_eq_true] at hfits
  exact isWords_coeff_add hfits.2 ha s

end Affine

namespace Expr

variable {x y e : Expr} {a : Affine}

theorem Canonical.simplify_difference (hy : y.Canonical) :
    (x.difference y).value.simplify.value = (x.difference y).value := by
  by_cases hxy : x = y
  · rw [hxy, difference_self, Checked.value_pure, value_simplify rfl,
      Affine.toExpr_of_isConstant rfl]
    rfl
  · by_cases h : (Affine.ofExpr x).value = none ∨ (Affine.ofExpr y).value = none
    · rw [value_difference_of_eq_none hxy h, Expr.simplify, Checked.value_bind,
        Affine.ofExpr_minus_eq_none hy h]
      rfl
    · obtain ⟨⟨a, ha⟩, b, hb⟩ := exists_affine_of_not_none h
      rw [value_simplify (ofExpr_difference ha hb), value_difference ha hb]

theorem toInt?_difference_zero (h : e.simplify.value = e) :
    (e.difference (.num 0)).value.toInt? = e.toInt? := by
  cases hform : (Affine.ofExpr e).value with
  | none =>
    have hne : e ≠ .num 0 := by
      rintro rfl
      cases hform
    have hminus := Affine.ofExpr_minus_eq_none (.num 0) (.inl hform)
    rw [value_difference_of_eq_none hne (.inl hform),
      toInt?_eq_none (isNumber_of_ofExpr_eq_none hminus),
      toInt?_eq_none (isNumber_of_ofExpr_eq_none hform)]
  | some a =>
    rw [toInt?_difference_of_affine hform rfl,
      Affine.value_sub_zero (Affine.reduced_ofExpr e hform), ← Affine.toInt?_toExpr,
      ← value_simplify hform, h]

theorem fits_difference_zero (hy : y.Canonical) (hfits : (x.difference y).fits = true)
    (haffine : (Affine.ofExpr (x.difference y).value).value.isSome = true) :
    ((x.difference y).value.difference (.num 0)).fits = true := by
  by_cases hxy : x = y
  · rw [hxy, difference_self]
    rfl
  · by_cases h : (Affine.ofExpr x).value = none ∨ (Affine.ofExpr y).value = none
    · rw [value_difference_of_eq_none hxy h, Affine.ofExpr_minus_eq_none hy h] at haffine
      cases haffine
    · obtain ⟨⟨a, ha⟩, b, hb⟩ := exists_affine_of_not_none h
      have hreduced := Affine.reduced_sub (Affine.reduced_ofExpr x ha) b
      have hwords : (a.sub b).value.IsWords := by
        simp only [difference, if_neg hxy, Checked.fits_bind, Bool.and_eq_true, ha, hb] at hfits
        obtain ⟨hx, -, hsub, hwrite⟩ := hfits
        exact ⟨Affine.fits_toExpr.1 hwrite,
          Affine.isWords_coeff_sub hsub (Affine.isWords_coeff_ofExpr x hx ha)⟩
      have hform := Affine.ofExpr_toExpr hreduced hwords
      -- The difference can be read again, since it has been written in range.
      rw [value_difference ha hb, difference]
      split
      · rfl
      · rw [hform, pure_bind, Affine.ofExpr, pure_bind]
        dsimp only
        rw [Checked.fits_bind, Affine.fits_sub_zero hwords.constant,
          Affine.value_sub_zero hreduced, Affine.fits_toExpr.2 hwords.constant]
        rfl

end Expr

namespace OffsetVector

variable {e : Expr} {v : OffsetVector} {i : Int} {is : List Int}

theorem value_compareScalar?_zero (h : ∀ e ∈ v, e.simplify.value = e) :
    (v.compareScalar? (.ofInt 0)).value = v.sign? := by
  unfold compareScalar?
  rw [Checked.value_bind, Checked.value_pure, Checked.value_mapM]
  induction v with
  | nil => rfl
  | cons e v ih =>
    rw [List.forall_mem_cons] at h
    rw [List.map_cons, sign?_cons, sign?_cons, ih h.2]
    exact congrArg (Option.bind · _) (Expr.toInt?_difference_zero h.1)

theorem fits_compareScalar? {x : Expr} :
    (v.compareScalar? x).fits = true ↔ ∀ e ∈ v, (e.difference x).fits = true := by
  unfold compareScalar?
  rw [Checked.fits_bind, Checked.fits_pure, Bool.and_true, Checked.fits_mapM]

theorem toInts?_cons :
    toInts? (e :: v) = some is ↔
      ∃ i js, e.toInt? = some i ∧ toInts? v = some js ∧ is = i :: js := by
  unfold toInts?
  simp [List.mapM_cons, Option.bind_eq_some_iff, @eq_comm _ is]

theorem length_of_toInts? (his : toInts? v = some is) : is.length = v.length := by
  induction v generalizing is with
  | nil =>
    obtain rfl := Option.some.inj his
    rfl
  | cons e v ih =>
    obtain ⟨i, js, -, hjs, rfl⟩ := toInts?_cons.1 his
    rw [List.length_cons, ih hjs, List.length_cons]

theorem cases_of_sign?_cons (hi : e.toInt? = some i) (hsign : sign? (e :: v) ≠ some .lt) :
    0 < i ∨ i = 0 ∧ sign? v ≠ some .lt ∨ i < 0 ∧ sign? v = none := by
  rw [sign?_cons, hi, Option.bind_some] at hsign
  rcases lt_trichotomy i 0 with hneg | rfl | hpos
  · refine .inr (.inr ⟨hneg, ?_⟩)
    rw [compare_lt_iff_lt.2 hneg] at hsign
    cases hv : sign? v with
    | none => rfl
    | some o => simp [hv] at hsign
  · refine .inr (.inl ⟨rfl, ?_⟩)
    intro hv
    simp [hv] at hsign
  · exact .inl hpos

theorem cases_of_toInts? (his : toInts? (e :: v) = some is)
    (hsign : sign? (e :: v) ≠ some .lt) :
    ∃ i js, e.toInt? = some i ∧ toInts? v = some js ∧ is = i :: js ∧
      (0 < i ∨ i = 0 ∧ sign? v ≠ some .lt) := by
  obtain ⟨i, js, hi, hjs, rfl⟩ := toInts?_cons.1 his
  refine ⟨i, js, hi, hjs, rfl, ?_⟩
  rcases cases_of_sign?_cons hi hsign with hpos | hzero | ⟨-, hnone⟩
  · exact .inl hpos
  · exact .inr hzero
  · rw [sign?, hjs] at hnone
    cases hnone

theorem not_lt_replicate_zero (his : toInts? v = some is) (hsign : sign? v ≠ some .lt) :
    ¬ is < List.replicate is.length 0 := by
  induction v generalizing is with
  | nil =>
    obtain rfl := Option.some.inj his
    simp
  | cons e v ih =>
    obtain ⟨i, js, -, hjs, rfl, hpos | ⟨rfl, hv⟩⟩ := cases_of_toInts? his hsign
    · rw [List.length_cons, List.replicate_succ, List.cons_lt_cons_iff]
      omega
    · rw [List.length_cons, List.replicate_succ, List.cons_lt_cons_iff]
      simpa using ih hjs hv

end OffsetVector

namespace Dependence

open OffsetVector (sign? toInts? isZero)

variable {ds : List Dimension} {v : OffsetVector} {is : List Int}

theorem isSome_firstCause (hlength : ds.length = v.length) (hsign : sign? v ≠ some .lt) :
    (firstCause ds v).isSome = !v.isZero := by
  induction v generalizing ds with
  | nil =>
    rw [List.eq_nil_of_length_eq_zero hlength]
    rfl
  | cons e v ih =>
    obtain ⟨d, ds, rfl⟩ := List.exists_cons_of_length_eq_add_one hlength
    have hzero : isZero (e :: v) = (e.toInt? == some 0 && isZero v) := rfl
    have ih := ih (Nat.succ.inj hlength)
    rw [firstCause_cons, hzero]
    cases hi : e.toInt? with
    | none => rfl
    | some i =>
      rcases OffsetVector.cases_of_sign?_cons hi hsign with hpos | ⟨rfl, hv⟩ | ⟨hneg, hv⟩
      · have hne : (some i == some 0) = false := by simpa using hpos.ne'
        simp [hpos, hne]
      · exact ih hv
      · -- The rest contains an entry that is not an integer, and the first such one is the cause.
        have hrest : isZero v = false := by
          rw [← Bool.not_eq_true, ← OffsetVector.sign?_eq_eq_iff, hv]
          simp
        have hnot : ¬ 0 < i := by omega
        simpa [hnot, hrest, hv] using ih

theorem firstCause_eq_find? (his : toInts? v = some is) (hsign : sign? v ≠ some .lt) :
    firstCause ds v = ((ds.zip is).find? (·.2 ≠ 0)).map (·.1) := by
  induction v generalizing ds is with
  | nil =>
    obtain rfl := Option.some.inj his
    simp [firstCause]
  | cons e v ih =>
    obtain ⟨i, js, hi, hjs, rfl, hcases⟩ := OffsetVector.cases_of_toInts? his hsign
    cases ds with
    | nil => rfl
    | cons d ds =>
      rw [firstCause_cons, hi, List.zip_cons_cons, List.find?_cons]
      rcases hcases with hpos | ⟨rfl, hv⟩
      · have hne : i ≠ 0 := by omega
        simp [hpos, hne]
      · simpa using ih hjs hv

end Dependence

namespace Scope

variable {eqs : List (Equation × IterationSpace)} {s : Scope} {f : GridFunction}
variable {d : Dependence} {e : Expr}

section WellFormed

variable (h : (ofEquations eqs).run.value = .ok s)
variable (hrefs : ∀ e ∈ eqs, ∀ r ∈ e.1.references, r.WellFormed)
include h hrefs

theorem exists_difference (hd : d ∈ s.dependences) (he : e ∈ d.distance) :
    ∃ x y : Expr, y.Canonical ∧ e = (x.difference y).value ∧
      ((ofEquations eqs).run.fits = true → (x.difference y).fits = true) := by
  obtain ⟨f, hsource, hsink, -⟩ := accesses_of_depends h ⟨d, hd, rfl, rfl, rfl⟩
  obtain ⟨haligned, hoffsets⟩ :=
    TimedAccess.distance_eq_ok.1 ((ofEquations_eq_ok h).2.2.distance_eq hd)
  rw [hoffsets, TimedAccess.offsets_eq_map] at he
  obtain ⟨⟨⟨x, y⟩, dir⟩, hmem, rfl⟩ := List.mem_map.1 he
  have hrange (hfits : (ofEquations eqs).run.fits = true) :
      (TimedAccess.difference x y dir).fits = true := by
    have hbetween := (Dependence.fits_between_iff haligned).1 (fits_between h hfits hd)
    exact (TimedAccess.fits_distance haligned).1 hbetween.1 _ hmem
  obtain ⟨hx, hy⟩ := List.of_mem_zip (List.of_mem_zip hmem).1
  cases dir with
  | forward => exact ⟨x, y, canonical_indices h hrefs hsink y hy, rfl, hrange⟩
  | backward => exact ⟨y, x, canonical_indices h hrefs hsource x hx, rfl, hrange⟩

theorem matched_of_mem_dependences (hd : d ∈ s.dependences) :
    d.source.Matched d.sink ∧
      d.distance = TimedAccess.offsets d.source.directions d.source.indices d.sink.indices := by
  obtain ⟨f, hsource, hsink, -⟩ := accesses_of_depends h ⟨d, hd, rfl, rfl, rfl⟩
  obtain ⟨haligned, hoffsets⟩ :=
    TimedAccess.distance_eq_ok.1 ((ofEquations_eq_ok h).2.2.distance_eq hd)
  exact ⟨matched_of_aligned h hrefs hsource hsink haligned, hoffsets⟩

theorem sign?_distance_ne_lt (hd : d ∈ s.dependences) : d.distance.sign? ≠ some .lt := by
  obtain ⟨hmatched, hoffsets⟩ := matched_of_mem_dependences h hrefs hd
  rw [hoffsets]
  exact order_ne_lt_of_depends (ofEquations_eq_ok h).2.2 ⟨d, hd, rfl, rfl, rfl⟩ hmatched

theorem length_distance (hd : d ∈ s.dependences) :
    d.source.dimensions.length = d.distance.length := by
  obtain ⟨f, hsource, -⟩ := accesses_of_depends h ⟨d, hd, rfl, rfl, rfl⟩
  obtain ⟨hmatched, hoffsets⟩ := matched_of_mem_dependences h hrefs hd
  have hrank := hmatched.rank
  have hcovered := hmatched.covered
  rw [hoffsets, TimedAccess.offsets_eq_map, length_directions h hsource, List.length_map,
    List.length_zip, List.length_zip]
  omega

end WellFormed

/--
A dependence of a scope is carried exactly if it has a cause, and independent exactly if it has
none. If its distance consists of integers these are lexicographically not negative, and its cause
is the first dimension along which the distance is not zero. To ask whether it is carried compares
the distance with zero once more. This stays in range if the distance is affine; otherwise it is a
sum of which the terms had not been collected before.
-/
theorem carried_iff_cause (eqs : List (Equation × IterationSpace)) (s : Scope)
    (h : (ofEquations eqs).run.value = .ok s)
    (hrefs : ∀ e ∈ eqs, ∀ r ∈ e.1.references, r.WellFormed) (d : Dependence)
    (hd : d ∈ s.dependences) :
    d.isCarried.value = d.cause.isSome ∧ d.isIndependent = d.cause.isNone ∧
    ((ofEquations eqs).run.fits = true →
      (∀ e ∈ d.distance, (Affine.ofExpr e).value.isSome = true) → d.isCarried.fits = true) ∧
    ∀ is, d.distance.toInts? = some is →
      is.length = d.source.dimensions.length ∧ ¬ is < List.replicate is.length 0 ∧
      d.cause = ((d.source.dimensions.zip is).find? (·.2 ≠ 0)).map (·.1) := by
  have hsign := sign?_distance_ne_lt h hrefs hd
  have hlength := length_distance h hrefs hd
  have hcause : d.cause = Dependence.firstCause d.source.dimensions d.distance :=
    (between_eq_ok ((ofEquations_eq_ok h).2.2.between_eq hd)).2.2.2.2.1
  have hsome := Dependence.isSome_firstCause hlength hsign
  rw [← hcause] at hsome
  refine ⟨?_, ?_, ?_, ?_⟩
  · have hnormal : ∀ e ∈ d.distance, e.simplify.value = e := by
      intro e he
      obtain ⟨x, y, hy, rfl, -⟩ := exists_difference h hrefs hd he
      exact hy.simplify_difference
    rw [Dependence.isCarried, Checked.value_bind, Checked.value_pure,
      OffsetVector.value_compareScalar?_zero hnormal, hsome, Bool.eq_iff_iff, Bool.not_eq_true',
      ← Bool.not_eq_true, ← OffsetVector.sign?_eq_eq_iff]
    cases ho : d.distance.sign? with
    | none => simp
    | some o => cases o <;> simp_all
  · rw [Dependence.isIndependent, ← Option.not_isSome, hsome, Bool.not_not]
  · intro hfits haffine
    rw [Dependence.isCarried, Checked.fits_bind, Checked.fits_pure, Bool.and_true,
      OffsetVector.fits_compareScalar?]
    intro e he
    obtain ⟨x, y, hy, rfl, hrange⟩ := exists_difference h hrefs hd he
    exact Expr.fits_difference_zero hy (hrange hfits) (haffine _ he)
  · intro is his
    refine ⟨?_, OffsetVector.not_lt_replicate_zero his hsign, ?_⟩
    · rw [OffsetVector.length_of_toInts? his, hlength]
    · rw [hcause]
      exact Dependence.firstCause_eq_find? his hsign

section Lines

/-- `u[i] = u[j]`, along one dimension. -/
def lineUpdate (u : String) (i j : Expr) : Equation :=
  ⟨.access (.line u) [i], .access (.line u) [j], false⟩

theorem wellFormed_lineUpdate {u : String} {i j : Expr} (hi : i.Canonical) (hj : j.Canonical)
    (href : i.references ++ j.references = []) :
    ∀ r ∈ (lineUpdate u i j).references, r.WellFormed := by
  rw [List.append_eq_nil_iff] at href
  intro r hr
  simp only [lineUpdate, Equation.references, Equation.reads, Equation.write?, Expr.toReference?,
    Expr.references, Expr.referencesOfList, href, Option.toList_some, List.append_nil,
    List.cons_append, List.nil_append, List.mem_cons, List.not_mem_nil, or_false] at hr
  rcases hr with rfl | rfl
  · exact ⟨rfl, by simpa using hi⟩
  · exact ⟨rfl, by simpa using hj⟩

/-- `u[c x + f(x)] = u[-c x]`. -/
def steepUpdate (c : Rat) : Equation :=
  lineUpdate "u" (.add [.mul [.num c, .sym "x"], .call "f" [.sym "x"]])
    (.mul [.num (-c), .sym "x"])

theorem wellFormed_steepUpdate {c : Rat} (hc : 1 < c) :
    ∀ r ∈ (steepUpdate c).references, r.WellFormed := by
  have hmul {q : Rat} (hq : q ≠ 0 ∧ q ≠ 1) : (Expr.mul [.num q, .sym "x"]).Canonical :=
    .mul (Expr.canonical_pair (.num q) (.sym "x")) (Expr.arguments_num_sym rfl rfl (by simpa))
  have hcall : (Expr.call "f" [.sym "x"]).Canonical := .call "f" (by simp [Expr.Canonical.sym])
  refine wellFormed_lineUpdate (.add (Expr.canonical_pair (hmul (by grind)) hcall) ?_)
    (hmul (by grind)) rfl
  exact ⟨le_refl 2, List.pairwise_pair.2 rfl, by simp [Expr.isSum], by simp [Expr.isNumber],
    by simp⟩

/-- `v[x + 1] = v[x]`. -/
def shiftUpdate : Equation := lineUpdate "v" (.add [.num 1, .sym "x"]) (.sym "x")

theorem wellFormed_shiftUpdate : ∀ r ∈ shiftUpdate.references, r.WellFormed :=
  wellFormed_lineUpdate
    (.add (Expr.canonical_pair (.num 1) (.sym "x")) (Expr.arguments_num_sym rfl rfl (by simp)))
    (.sym "x") rfl

theorem carried_iff_cause_lines :
    (∀ e ∈ [(steepUpdate 2, IterationSpace.empty), (shiftUpdate, .empty)],
      ∀ r ∈ e.1.references, r.WellFormed) ∧
    ∃ s, (ofEquations [(steepUpdate 2, .empty), (shiftUpdate, .empty)]).run.value = .ok s ∧
      s.dependences.length = 3 ∧ ∀ d ∈ s.dependences, d.isCarried.value = true := by
  have hrefs : ∀ e ∈ [(steepUpdate 2, IterationSpace.empty), (shiftUpdate, .empty)],
      ∀ r ∈ e.1.references, r.WellFormed := by
    simpa using ⟨wellFormed_steepUpdate (by norm_num), wellFormed_shiftUpdate⟩
  have hcauses : (ofEquations [(steepUpdate 2, .empty), (shiftUpdate, .empty)]).run.value.map
      (fun s => s.dependences.map fun d => d.cause.isSome) = .ok [true, true, true] := by
    decide +kernel
  refine ⟨hrefs, ?_⟩
  cases hs : (ofEquations [(steepUpdate 2, .empty), (shiftUpdate, .empty)]).run.value with
  | error e =>
    rw [hs] at hcauses
    cases hcauses
  | ok s =>
    rw [hs] at hcauses
    have hsome : (s.dependences.map fun d => d.cause.isSome) = [true, true, true] :=
      Except.ok.inj hcauses
    refine ⟨s, rfl, ?_, ?_⟩
    · have hlength := congrArg List.length hsome
      rwa [List.length_map] at hlength
    · intro d hd
      have hmem : d.cause.isSome ∈ s.dependences.map fun d => d.cause.isSome :=
        List.mem_map_of_mem hd
      rw [hsome] at hmem
      rw [(carried_iff_cause _ s hs hrefs d hd).1]
      simpa using hmem

/--
The distance `2 ^ 62 x + f(x) - (-2 ^ 62 x)` is not affine, so its terms are not collected when the
scope is built. They are when it is compared with zero, and `2 ^ 63` is out of range.
-/
theorem not_fits_isCarried_steepUpdate :
    (∀ r ∈ (steepUpdate (2 ^ 62)).references, r.WellFormed) ∧
    (ofEquations [(steepUpdate (2 ^ 62), .empty)]).run.fits = true ∧
    ∃ s, (ofEquations [(steepUpdate (2 ^ 62), .empty)]).run.value = .ok s ∧
      ∃ d ∈ s.dependences, d.cause.isSome = true ∧ d.isCarried.fits = false := by
  have hany : (ofEquations [(steepUpdate (2 ^ 62), .empty)]).run.value.map
      (fun s => s.dependences.any fun d => d.cause.isSome && !d.isCarried.fits) = .ok true := by
    decide +kernel
  refine ⟨wellFormed_steepUpdate (by norm_num), by decide +kernel, ?_⟩
  cases hs : (ofEquations [(steepUpdate (2 ^ 62), .empty)]).run.value with
  | error e =>
    rw [hs] at hany
    cases hany
  | ok s =>
    rw [hs] at hany
    simpa using Except.ok.inj hany

end Lines

end Scope

end Stencil
