import Stencil.Proofs.Temporaries.Range

/-!
This module contains the fact that the elimination of common subexpressions can be undone. If the
operations of the temporaries are put back, that of the last temporary first, the equations are
exactly those there were in the beginning.
-/

namespace Stencil

namespace Temporaries

def unfolding (t : Equation) (e : Expr) : Option Expr := if e = t.lhs then some t.rhs else none

/-- Puts the values of temporaries into an equation, that of the last temporary first. -/
def inline (ts : List Equation) (eq : Equation) : Checked Equation :=
  ts.foldrM (fun t eq => replaceIn (unfolding t) eq) eq

section Step

variable {k : Expr} {x : String} {bs : List (Expr × Expr)}
  (hbs : BindsNames ((k, .sym x) :: bs)) (hnot : ∀ b ∈ bs, b.2 ≠ .sym x)

include hbs hnot

theorem composes_unfolding {e : Expr} (he : e.Canonical) (hfresh : x ∉ e.valueSymbols) :
    Expr.Composes (lookup ((k, .sym x) :: bs))
      (unfolding ⟨.sym x, (k.replace (lookup bs)).value, false⟩) (lookup bs) e := by
  constructor
  · intro a s _ hs
    by_cases hak : a = k
    · subst hak
      rw [lookup_cons_self, Option.some.injEq, Expr.sym.injEq] at hs
      subst hs
      symm
      apply Expr.value_replace_of_some
      exact if_pos rfl
    · rw [lookup_cons_of_ne hak] at hs
      have hne : Expr.sym s ≠ .sym x := hnot _ (mem_of_lookup hs)
      rw [Expr.value_replace_of_some hs, Expr.value_replace_of_leaf (if_neg hne) rfl]
  · intro a ha hnone
    have hak : a ≠ k := by
      rintro rfl
      rw [lookup_cons_self] at hnone
      cases hnone
    have hne : (a.replace (lookup ((k, .sym x) :: bs))).value ≠ .sym x := by
      intro hs
      obtain rfl := hbs.naming.eq_sym_of_replace (he.of_within ha) hnone hs
      exact hfresh (Expr.mem_valueSymbols.2 ha)
    rw [lookup_cons_of_ne hak] at hnone
    rw [hnone]
    exact (if_neg hne).symm

theorem replace_unfolding {e : Expr} (he : IsStable e) (hfresh : x ∉ e.valueSymbols) :
    ((e.replace (lookup ((k, .sym x) :: bs))).value.replace
      (unfolding ⟨.sym x, (k.replace (lookup bs)).value, false⟩)).value =
      (e.replace (lookup bs)).value := by
  rcases he with hleaf | hcanonical
  · have hne : e ≠ .sym x := by
      rintro rfl
      exact hfresh (List.mem_singleton_self x)
    rw [hbs.replace_of_not_isOperation hleaf, hbs.of_cons.replace_of_not_isOperation hleaf]
    exact Expr.value_replace_of_leaf (if_neg hne) hleaf
  · exact (composes_unfolding hbs hnot hcanonical hfresh).value_replace hbs.naming hcanonical

theorem fits_unfolding {e : Expr} (he : InRange e) (hfresh : x ∉ e.valueSymbols) :
    ((e.replace (lookup ((k, .sym x) :: bs))).value.replace
      (unfolding ⟨.sym x, (k.replace (lookup bs)).value, false⟩)).fits = true := by
  rcases he with hleaf | ⟨hcanonical, hwords⟩
  · rw [hbs.replace_of_not_isOperation hleaf]
    exact Expr.fits_replace_of_leaf hleaf
  · exact (composes_unfolding hbs hnot hcanonical hfresh).fits_replace hbs.naming
      hbs.of_cons.naming.atomic hcanonical hwords

theorem Reduces.of_unfolding {eq eq₀ : Equation} (hcanonical : eq₀.rhs.Canonical)
    (hlhs : x ∉ eq₀.lhs.valueSymbols) (hrhs : x ∉ eq₀.rhs.valueSymbols)
    (h : Reduces ((k, .sym x) :: bs) eq eq₀) :
    Reduces bs (replaceIn (unfolding ⟨.sym x, (k.replace (lookup bs)).value, false⟩) eq).value
      eq₀ where
  lhs hstable := by
    rw [value_replaceIn, h.lhs hstable]
    exact replace_unfolding hbs hnot hstable hlhs
  rhs := by
    rw [value_replaceIn, h.rhs]
    exact replace_unfolding hbs hnot (.inr hcanonical) hrhs
  isIncrement := h.isIncrement

end Step

theorem Reduces.rhs_of_nil {eq eq₀ : Equation} (h : Reduces [] eq eq₀)
    (hcanonical : eq₀.rhs.Canonical) : eq.rhs = eq₀.rhs :=
  h.rhs.trans (Expr.value_replace_none hcanonical)

theorem Reduces.eq_of_nil {eq eq₀ : Equation} (h : Reduces [] eq eq₀) (hstable : IsStable eq₀.lhs)
    (hcanonical : eq₀.rhs.Canonical) : eq = eq₀ := by
  have hlhs : eq.lhs = eq₀.lhs := by
    rw [h.lhs hstable]
    rcases hstable with hleaf | hcanonical
    · exact Expr.value_replace_of_leaf rfl hleaf
    · exact Expr.value_replace_none hcanonical
  have hrhs := h.rhs_of_nil hcanonical
  have hincrement := h.isIncrement
  cases eq
  cases eq₀
  simp_all

theorem inline_reverse (ts : List Equation) (eq : Equation) :
    inline ts.reverse eq = ts.foldlM (fun eq t => replaceIn (unfolding t) eq) eq := by
  rw [inline, List.foldrM_reverse]

theorem Reduces.inline {bs : List (Expr × Expr)} {eq eq₀ : Equation} (hbs : BindsNames bs)
    (hnodup : (bs.map (·.2)).Nodup)
    (hunnamed : ∀ x, .sym x ∈ bs.map (·.2) →
      x ∉ eq₀.lhs.valueSymbols ∧ x ∉ eq₀.rhs.valueSymbols)
    (hcanonical : eq₀.rhs.Canonical) (h : Reduces bs eq eq₀) :
    Reduces [] (Temporaries.inline (definitions bs).reverse eq).value eq₀ ∧
      (InRange eq₀.lhs ∧ InRange eq₀.rhs →
        (Temporaries.inline (definitions bs).reverse eq).fits = true) := by
  rw [inline_reverse]
  induction bs generalizing eq with
  | nil => exact ⟨h, fun _ => rfl⟩
  | cons b bs ih =>
    obtain ⟨k, v⟩ := b
    obtain ⟨-, x, hx⟩ := hbs (k, v) (List.mem_cons_self ..)
    dsimp only at hx
    subst hx
    rw [List.map_cons, List.nodup_cons] at hnodup
    rw [List.map_cons] at hunnamed
    obtain ⟨hlhs, hrhs⟩ := hunnamed x (List.mem_cons_self ..)
    have hnot : ∀ b ∈ bs, b.2 ≠ .sym x :=
      fun b hb heq => hnodup.1 (List.mem_map.2 ⟨b, hb, heq⟩)
    obtain ⟨hvalue, hfits⟩ := ih hbs.of_cons hnodup.2
      (fun y hy => hunnamed y (List.mem_cons_of_mem _ hy))
      (h.of_unfolding hbs hnot hcanonical hlhs hrhs)
    rw [definitions, List.foldlM_cons]
    refine ⟨hvalue, fun hrange => ?_⟩
    rw [Checked.fits_bind, Bool.and_eq_true]
    refine ⟨?_, hfits hrange⟩
    simp only [replaceIn, Checked.fits_bind, Checked.fits_pure, Bool.and_true, Bool.and_eq_true]
    rw [h.lhs hrange.1.isStable, h.rhs]
    exact ⟨fits_unfolding hbs hnot hrange.1 hlhs, fits_unfolding hbs hnot hrange.2 hrhs⟩

/--
Without its temporaries, whose operations are put back from the last one to the first, the result of
the elimination is the list of equations it was made from. An operation on a left-hand side is
rebuilt, so it has to be canonical. There are no other index functions, and nothing is computed out
of range.
-/
theorem inline_eliminate {name : Nat → String} {eqs : List Equation} (h : Admissible name eqs) :
    ∃ ts rest, (eliminate (fun i => .sym (name i)) eqs).value = ts ++ rest ∧
      ts.map (·.lhs) = (List.range ts.length).map (fun i => Expr.sym (name i)) ∧
      (∀ t ∈ ts, t.isIncrement = false) ∧
      rest.length = eqs.length ∧
      (rest.mapM (inline ts)).value.map (fun eq => (eq.rhs, eq.isIncrement)) =
        eqs.map (fun eq => (eq.rhs, eq.isIncrement)) ∧
      ((∀ eq ∈ eqs, IsStable eq.lhs) → (rest.mapM (inline ts)).value = eqs) ∧
      (∀ eq ∈ ts ++ rest, eq.AllReferences fun r =>
        ∃ eq₀ ∈ eqs, r ∈ eq₀.lhs.references ++ eq₀.rhs.references) ∧
      (AllInRange eqs → (eliminate (fun i => .sym (name i)) eqs).fits = true ∧
        (rest.mapM (inline ts)).fits = true) := by
  obtain ⟨bs, rest, hvalue, htakes, hnumbered, hprogram⟩ := h.exists_eliminate
  have hunnamed {eq₀ : Equation} (heq₀ : eq₀ ∈ eqs) (x : String) (hx : .sym x ∈ bs.map (·.2)) :
      x ∉ eq₀.lhs.valueSymbols ∧ x ∉ eq₀.rhs.valueSymbols := by
    obtain ⟨b, hb, hbx⟩ := List.mem_map.1 hx
    obtain ⟨i, -, hi⟩ := htakes.exists_number hb
    rw [← Expr.sym.inj (hi.symm.trans hbx)]
    exact ⟨h.notMem_valueSymbols_lhs heq₀ i, h.notMem_valueSymbols_rhs heq₀ i⟩
  have hinline {eq eq₀ : Equation} (heq₀ : eq₀ ∈ eqs) (hreduces : Reduces bs eq eq₀) :=
    hreduces.inline htakes.bindsNames (htakes.nodup h.injective) (hunnamed heq₀)
      (h.canonical eq₀ heq₀)
  have hrest : List.Forall₂ (Reduces []) (rest.mapM (inline (definitions bs).reverse)).value eqs := by
    rw [Checked.value_mapM, List.forall₂_map_left_iff]
    exact forall₂_imp_of_mem hprogram fun eq _ eq₀ heq₀ hreduces => (hinline heq₀ hreduces).1
  refine ⟨(definitions bs).reverse, rest, hvalue, ?_, ?_, hprogram.length_eq, ?_, ?_, ?_, ?_⟩
  · rw [List.map_reverse, map_lhs_definitions, hnumbered, List.length_reverse, length_definitions]
  · intro t ht
    obtain ⟨b, -, cs, -, rfl⟩ := exists_of_mem_definitions (List.mem_reverse.1 ht)
    rfl
  · rw [← List.forall₂_eq_eq_eq, List.forall₂_map_left_iff, List.forall₂_map_right_iff]
    apply forall₂_imp_of_mem hrest
    intro eq _ eq₀ heq₀ hreduces
    rw [hreduces.rhs_of_nil (h.canonical eq₀ heq₀), hreduces.isIncrement]
  · intro hlhs
    rw [← List.forall₂_eq_eq_eq]
    apply forall₂_imp_of_mem hrest
    intro eq _ eq₀ heq₀ hreduces
    exact hreduces.eq_of_nil (hlhs eq₀ heq₀) (h.canonical eq₀ heq₀)
  · rw [← hvalue]
    exact allReferences_eliminate (fun _ => rfl) fun eq heq r hr => ⟨eq, heq, hr⟩
  · intro hrange
    refine ⟨fits_eliminate h.injective hrange, ?_⟩
    rw [Checked.fits_mapM]
    intro eq heq
    obtain ⟨eq₀, heq₀, hreduces⟩ := exists_mem_right hprogram heq
    exact (hinline heq₀ hreduces).2 (hrange eq₀ heq₀)

/-- Two temporaries are made, in two rounds. -/
theorem inline_eliminate_nested :
    ∃ ts rest, eliminate (fun i => .sym s!"r{i}") nested = pure (ts ++ rest) ∧ ts.length = 2 ∧
      rest.mapM (inline ts) = pure nested := by
  have hlength : (eliminate (fun i => .sym s!"r{i}") nested).value.length = 5 := by
    decide +kernel
  obtain ⟨ts, rest, hvalue, -, -, hrest, -, hinline, -, hfits⟩ :=
    inline_eliminate admissible_nested
  obtain ⟨heliminate, hmapM⟩ := hfits allInRange_nested
  have hnested := hinline fun eq heq => (allInRange_nested eq heq).1.isStable
  refine ⟨ts, rest, Checked.eq_pure_iff.2 ⟨heliminate, hvalue⟩, ?_,
    Checked.eq_pure_iff.2 ⟨hmapM, hnested⟩⟩
  have hthree : rest.length = 3 := hrest
  rw [hvalue, List.length_append] at hlength
  omega

end Temporaries

end Stencil
