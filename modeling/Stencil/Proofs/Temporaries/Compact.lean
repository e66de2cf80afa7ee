import Stencil.Proofs.Body
import Stencil.Proofs.FlowGraph
import Stencil.Proofs.Temporaries.Eliminate
import Stencil.Temporaries.Compact

/-!
This module contains what is left of equations when temporaries are removed: the equations that are
not removed, in order, with values in place of scalars.
-/

namespace Stencil

namespace Temporaries

variable {P : Reference → Prop}

theorem value_replaceFully (σ : Expr → Option Expr) (fuel : Nat) (e : Expr) :
    (replaceFully σ fuel e).value = (fun e => (e.replace σ).value)^[fuel] e := by
  induction fuel generalizing e with
  | zero => rfl
  | succ fuel ih =>
    rw [replaceFully, Checked.value_bind, Function.iterate_succ_apply]
    split
    · next heq =>
      rw [heq]
      exact (Function.iterate_fixed heq fuel).symm
    · exact ih _

theorem replaceFully_induct {σ : Expr → Option Expr} {motive : Expr → Prop}
    (step : ∀ e, motive e → motive (e.replace σ).value) (fuel : Nat) {e : Expr} (he : motive e) :
    motive (replaceFully σ fuel e).value := by
  rw [value_replaceFully]
  exact Function.Iterate.rec motive he step fuel

theorem mem_references_replaceFully {σ : Expr → Option Expr} {fuel : Nat} {e : Expr} :
    ∀ r ∈ (replaceFully σ fuel e).value.references,
      r ∈ e.references ∨ ∃ a b, σ a = some b ∧ r ∈ b.references := by
  apply replaceFully_induct (motive := fun e' =>
    ∀ r ∈ e'.references, r ∈ e.references ∨ ∃ a b, σ a = some b ∧ r ∈ b.references)
  · intro e' he' r hr
    rcases Expr.mem_references_replace hr with hr | ⟨a, b, -, hab, hr⟩
    · exact he' r hr
    · exact .inr ⟨a, b, hab, hr⟩
  · exact fun r hr => .inl hr

def removals (temporaries leaves : List Equation) : OrdMap Expr Expr :=
  let nodes := (FlowGraph.ofEquations (temporaries ++ leaves)).nodes
  .ofList ((nodes.filter (isRemovable (.ofList (leaves.map (·.lhs))))).map
    fun n => (n.lhs, n.equation.rhs))

def isRemoved (temporaries leaves : List Equation) (eq : Equation) : Bool :=
  (removals temporaries leaves).contains eq.lhs

def compacted (temporaries leaves : List Equation) (eq : Equation) : Checked Equation := do
  let values := removals temporaries leaves
  return { eq with rhs := ← replaceFully values.find? (values.size + 1) eq.rhs }

variable {temporaries leaves : List Equation}

@[simp]
theorem lhs_compacted (eq : Equation) :
    (compacted temporaries leaves eq).value.lhs = eq.lhs := by
  simp only [compacted, Checked.value_bind, Checked.value_pure]

theorem rhs_compacted (eq : Equation) : (compacted temporaries leaves eq).value.rhs =
    (replaceFully (removals temporaries leaves).find? ((removals temporaries leaves).size + 1)
      eq.rhs).value := by
  simp only [compacted, Checked.value_bind, Checked.value_pure]

@[simp]
theorem isIncrement_compacted (eq : Equation) :
    (compacted temporaries leaves eq).value.isIncrement = eq.isIncrement := by
  simp only [compacted, Checked.value_bind, Checked.value_pure]

@[simp]
theorem isScalar_compacted (eq : Equation) :
    (compacted temporaries leaves eq).value.isScalar = eq.isScalar := by
  rw [Equation.isScalar, lhs_compacted, Equation.isScalar]

theorem mem_of_mem_nodes {eqs : List Equation} {n : FlowNode}
    (hn : n ∈ (FlowGraph.ofEquations eqs).nodes) : n.equation ∈ eqs := by
  rw [← FlowGraph.map_equation_nodes eqs]
  exact List.mem_map_of_mem hn

theorem exists_of_removals {a v : Expr} (h : (removals temporaries leaves).find? a = some v) :
    ∃ eq ∈ temporaries ++ leaves, eq.isScalar = true ∧ eq.lhs = a ∧ eq.rhs = v := by
  obtain ⟨n, hn, heq⟩ := List.mem_map.1 (OrdMap.mem_of_find?_ofList h)
  obtain ⟨rfl, rfl⟩ := Prod.mk.inj heq
  obtain ⟨hn, hremovable⟩ := List.mem_filter.1 hn
  simp only [isRemovable, Bool.and_eq_true] at hremovable
  exact ⟨n.equation, mem_of_mem_nodes hn, hremovable.1.1, rfl, rfl⟩

theorem exists_symbol_of_isRemoved {eq : Equation}
    (h : isRemoved temporaries leaves eq = true) : ∃ s, eq.lhs = .sym s := by
  obtain ⟨v, hv⟩ := Option.isSome_iff_exists.1 h
  obtain ⟨eq', -, hscalar, hlhs, -⟩ := exists_of_removals hv
  rw [← hlhs]
  exact Equation.exists_symbol_of_isScalar hscalar

theorem isRemoved_of_not_isScalar {eq : Equation} (h : eq.isScalar = false) :
    isRemoved temporaries leaves eq = false := by
  rw [← Bool.not_eq_true]
  intro hremoved
  obtain ⟨s, hs⟩ := exists_symbol_of_isRemoved hremoved
  simp [Equation.isScalar_of_symbol hs] at h

theorem compact_eq (temporaries leaves : List Equation) :
    compact temporaries leaves = ((temporaries ++ leaves).filter
      (!isRemoved temporaries leaves ·)).mapM (compacted temporaries leaves) := by
  have hkept : (temporaries ++ leaves).filter (!isRemoved temporaries leaves ·) =
      ((FlowGraph.ofEquations (temporaries ++ leaves)).nodes.filter
        (!isRemoved temporaries leaves ·.equation)).map (·.equation) := by
    conv_lhs => rw [← FlowGraph.map_equation_nodes (temporaries ++ leaves), List.filter_map]
    rfl
  rw [hkept, List.mapM_map]
  rfl

theorem value_compact (temporaries leaves : List Equation) :
    (compact temporaries leaves).value = ((temporaries ++ leaves).filter
      (!isRemoved temporaries leaves ·)).map fun eq => (compacted temporaries leaves eq).value := by
  rw [compact_eq, Checked.value_mapM]

theorem allReferences_compacted (h : ∀ eq ∈ temporaries ++ leaves, eq.AllReferences P)
    {eq : Equation} (heq : eq ∈ temporaries ++ leaves) :
    (compacted temporaries leaves eq).value.AllReferences P := by
  intro r hr
  rw [lhs_compacted, rhs_compacted] at hr
  rcases List.mem_append.1 hr with hr | hr
  · exact h eq heq r (List.mem_append_left _ hr)
  · rcases mem_references_replaceFully r hr with hr | ⟨a, b, hab, hr⟩
    · exact h eq heq r (List.mem_append_right _ hr)
    · obtain ⟨eq', heq', -, -, rfl⟩ := exists_of_removals hab
      exact h eq' heq' r (List.mem_append_right _ hr)

theorem exists_of_mem_compact {eq : Equation} (h : eq ∈ (compact temporaries leaves).value) :
    ∃ eq' ∈ temporaries ++ leaves, isRemoved temporaries leaves eq' = false ∧
      eq = (compacted temporaries leaves eq').value := by
  rw [value_compact] at h
  obtain ⟨eq', heq', rfl⟩ := List.mem_map.1 h
  obtain ⟨heq', hkept⟩ := List.mem_filter.1 heq'
  exact ⟨eq', heq', by simpa using hkept, rfl⟩

theorem mem_compact {eq : Equation} (heq : eq ∈ temporaries ++ leaves)
    (hkept : isRemoved temporaries leaves eq = false) :
    (compacted temporaries leaves eq).value ∈ (compact temporaries leaves).value := by
  rw [value_compact]
  apply List.mem_map_of_mem (f := fun eq => (compacted temporaries leaves eq).value)
  exact List.mem_filter.2 ⟨heq, by rw [hkept]; rfl⟩

theorem allReferences_compact (h : ∀ eq ∈ temporaries ++ leaves, eq.AllReferences P) :
    ∀ eq ∈ (compact temporaries leaves).value, eq.AllReferences P := by
  intro eq heq
  obtain ⟨eq', heq', -, rfl⟩ := exists_of_mem_compact heq
  exact allReferences_compacted h heq'

theorem exists_of_mem_replace_removals {e : Expr} {x : String}
    (hx : x ∈ (e.replace (removals temporaries leaves).find?).value.valueSymbols) :
    x ∈ e.valueSymbols ∧ (removals temporaries leaves).find? (.sym x) = none ∨
      ∃ eq ∈ temporaries ++ leaves, ∃ s, eq.lhs = .sym s ∧ s ∈ e.valueSymbols ∧
        (removals temporaries leaves).find? (.sym s) = some eq.rhs ∧
        x ∈ eq.rhs.valueSymbols := by
  rw [Expr.mem_valueSymbols] at hx
  rcases Expr.within_replace rfl hx with ⟨hx, hnone⟩ | ⟨a, v, ha, hav, hx⟩
  · exact .inl ⟨Expr.mem_valueSymbols.2 hx, hnone⟩
  · obtain ⟨eq, heq, hscalar, rfl, rfl⟩ := exists_of_removals hav
    obtain ⟨s, hs⟩ := Equation.exists_symbol_of_isScalar hscalar
    rw [hs] at ha hav
    exact .inr ⟨eq, heq, s, hs, Expr.mem_valueSymbols.2 ha, hav, Expr.mem_valueSymbols.2 hx⟩

section Acyclic

variable (h : Body.Acyclic (temporaries ++ leaves))

include h

theorem exists_removal_rank : ∃ rank : String → Nat,
    ∀ x v, (removals temporaries leaves).find? (.sym x) = some v →
      rank x < (removals temporaries leaves).size ∧ ∀ y ∈ v.valueSymbols,
        (removals temporaries leaves).find? (.sym y) ≠ none → rank y < rank x := by
  have hmem {x : String} {v : Expr}
      (hx : (removals temporaries leaves).find? (.sym x) = some v) :
      ∃ eq ∈ (temporaries ++ leaves).filter (isRemoved temporaries leaves),
        eq.lhs = .sym x ∧ eq.rhs = v := by
    obtain ⟨eq, heq, -, hlhs, hrhs⟩ := exists_of_removals hx
    refine ⟨eq, List.mem_filter.2 ⟨heq, ?_⟩, hlhs, hrhs⟩
    rw [isRemoved, OrdMap.contains, hlhs, hx]
    rfl
  have horder := h.sublist (List.filter_sublist (p := isRemoved temporaries leaves))
  have hlength : ((temporaries ++ leaves).filter (isRemoved temporaries leaves)).length ≤
      (removals temporaries leaves).size := by
    have hnodup : (((temporaries ++ leaves).filter (isRemoved temporaries leaves)).map
        (·.lhs)).Nodup := by
      rw [List.Nodup, List.pairwise_map]
      apply horder.once.imp_of_mem
      intro e e' _ he' honce heq
      obtain ⟨s, hs⟩ := exists_symbol_of_isRemoved (List.mem_filter.1 he').2
      exact honce s hs (heq.trans hs)
    have hkeys : ((temporaries ++ leaves).filter (isRemoved temporaries leaves)).map (·.lhs) ⊆
        (removals temporaries leaves).keys := by
      intro k hk
      obtain ⟨eq, heq, rfl⟩ := List.mem_map.1 hk
      exact OrdMap.mem_keys.2 (Option.isSome_iff_exists.1 (List.mem_filter.1 heq).2)
    have hle := (List.subperm_of_subset hnodup hkeys).length_le
    rwa [List.length_map, OrdMap.keys, List.length_map] at hle
  obtain ⟨rank, hrank⟩ := horder.exists_rank
  refine ⟨rank, fun x v hx => ?_⟩
  obtain ⟨eq, heq, hlhs, rfl⟩ := hmem hx
  obtain ⟨hlt, hused⟩ := hrank eq heq x hlhs
  refine ⟨by omega, fun y hy hremoved => ?_⟩
  obtain ⟨v, hv⟩ := Option.ne_none_iff_exists'.1 hremoved
  obtain ⟨e, he, hlhs, -⟩ := hmem hv
  exact hused y hy ⟨e, he, hlhs⟩

theorem find?_of_mem_compacted {eq : Equation} {x : String}
    (hx : x ∈ (compacted temporaries leaves eq).value.rhs.valueSymbols) :
    (removals temporaries leaves).find? (.sym x) = none := by
  obtain ⟨rank, hrank⟩ := exists_removal_rank h
  have hrounds (n : Nat) (e : Expr)
      (he : ∀ y ∈ e.valueSymbols, (removals temporaries leaves).find? (.sym y) ≠ none →
        rank y < n) :
      ∀ y ∈ ((fun e => (e.replace (removals temporaries leaves).find?).value)^[n] e).valueSymbols,
        (removals temporaries leaves).find? (.sym y) = none := by
    induction n generalizing e with
    | zero =>
      intro y hy
      apply Classical.byContradiction
      intro hremoved
      have := he y hy hremoved
      omega
    | succ n ih =>
      apply ih
      intro y hy hremoved
      rcases exists_of_mem_replace_removals hy with ⟨-, hnone⟩ | ⟨eq, -, s, -, hs, hv, hy⟩
      · exact absurd hnone hremoved
      · have := he s hs (by simp [hv])
        have := (hrank s eq.rhs hv).2 y hy hremoved
        omega
  rw [rhs_compacted, value_replaceFully] at hx
  apply hrounds ((removals temporaries leaves).size + 1) eq.rhs _ x hx
  intro y _ hremoved
  obtain ⟨v, hv⟩ := Option.ne_none_iff_exists'.1 hremoved
  have := (hrank y v hv).1
  omega

theorem assigned_of_mem_compacted {eq : Equation} {x : String}
    (hx : x ∈ (compacted temporaries leaves eq).value.rhs.valueSymbols)
    (hassigned : Body.Assigned (temporaries ++ leaves) x) :
    Body.Assigned (compact temporaries leaves).value x := by
  obtain ⟨d, hd, hlhs⟩ := hassigned
  have hkept : isRemoved temporaries leaves d = false := by
    rw [isRemoved, OrdMap.contains, hlhs, find?_of_mem_compacted h hx]
    rfl
  refine ⟨(compacted temporaries leaves d).value, ?_, by rw [lhs_compacted, hlhs]⟩
  exact mem_compact hd hkept

end Acyclic

section Ordered

variable (h : Body.Ordered (temporaries ++ leaves))

include h

theorem not_assigned_compacted {before after : List Equation} {eq : Equation}
    (hsplit : temporaries ++ leaves = before ++ eq :: after) {x : String}
    (hx : x ∈ (compacted temporaries leaves eq).value.rhs.valueSymbols) :
    ¬ Body.Assigned (eq :: after) x := by
  rw [rhs_compacted] at hx
  rw [hsplit] at h
  have hused {e : Expr} {y : String} (hy : y ∈ e.valueSymbols) : y ∈ e.symbols :=
    Expr.mem_symbols.2 (.inl hy)
  revert x
  apply replaceFully_induct (motive := fun e =>
    ∀ {x}, x ∈ e.valueSymbols → ¬ Body.Assigned (eq :: after) x)
  · intro e he y hy
    rcases exists_of_mem_replace_removals hy with ⟨hy, -⟩ | ⟨d, hd, z, hlhs, hz, -, hy⟩
    · exact he hy
    · rw [hsplit] at hd
      rcases List.mem_append.1 hd with hd | hd
      · rintro ⟨d', hd', hlhs'⟩
        apply (List.pairwise_append.1 h.before).2.2 d hd d' hd' y hlhs'
        exact List.mem_append_left _ (hused hy)
      · exact absurd ⟨d, hd, hlhs⟩ (he hz)
  · intro y hy
    apply (h.sublist (List.sublist_append_right ..)).not_assigned_of_used
    exact List.mem_append_left _ (hused hy)

theorem ordered_compact
    (hindices : ∀ eq ∈ temporaries ++ leaves, eq.AllReferences fun r =>
      ∀ x ∈ Expr.symbolsOfList r.indices, ¬ Body.Assigned (temporaries ++ leaves) x) :
    Body.Ordered (compact temporaries leaves).value := by
  have hused {before after : List Equation} {eq : Equation}
      (hsplit : temporaries ++ leaves = before ++ eq :: after) {x : String}
      (hx : x ∈ (compacted temporaries leaves eq).value.usedSymbols) :
      ¬ Body.Assigned (eq :: after) x := by
    have heq : eq ∈ temporaries ++ leaves := by simp [hsplit]
    rcases Equation.mem_usedSymbols hx with hx | ⟨r, hr, hx⟩
    · exact not_assigned_compacted h hsplit hx
    · rintro ⟨e, he, hlhs⟩
      apply allReferences_compacted hindices heq r hr x hx
      rw [hsplit]
      exact ⟨e, List.mem_append_right _ he, hlhs⟩
  have hbefore : (temporaries ++ leaves).Pairwise fun e e' => ∀ x, e'.lhs = .sym x →
      x ∉ (compacted temporaries leaves e).value.usedSymbols := by
    rw [List.pairwise_iff_forall_sublist]
    intro e e' hsub x hlhs hx
    obtain ⟨front, back, hsplit, he, he'⟩ := List.cons_sublist_iff.1 hsub
    obtain ⟨before, after, rfl⟩ := List.append_of_mem he
    rw [List.append_assoc, List.cons_append] at hsplit
    apply hused hsplit hx
    have hafter := List.mem_append_right after (List.singleton_sublist.1 he')
    exact ⟨e', List.mem_cons_of_mem _ hafter, hlhs⟩
  have hkept {eq : Equation}
      (heq : eq ∈ (temporaries ++ leaves).filter fun eq => !isRemoved temporaries leaves eq) :
      eq ∈ temporaries ++ leaves := List.mem_of_mem_filter heq
  rw [value_compact]
  constructor
  · rw [List.forall_mem_map]
    intro eq heq
    have hwrites := h.writes eq (hkept heq)
    rwa [Equation.isTensor, Equation.write?, isScalar_compacted, isIncrement_compacted,
      lhs_compacted]
  · simp only [List.pairwise_map, lhs_compacted]
    exact h.once.filter _
  · simp only [List.pairwise_map, lhs_compacted]
    exact hbefore.filter _
  · rw [List.forall_mem_map]
    intro eq heq x hlhs hx
    rw [lhs_compacted] at hlhs
    obtain ⟨before, after, hsplit⟩ := List.append_of_mem (hkept heq)
    exact hused hsplit hx ⟨eq, List.mem_cons_self .., hlhs⟩

end Ordered

theorem drawn_compacted {eq : Equation} {r : Reference} :
    Body.Drawn (temporaries ++ leaves) r (compacted temporaries leaves eq).value.rhs →
      Body.Drawn (temporaries ++ leaves) r eq.rhs := by
  rw [rhs_compacted]
  apply replaceFully_induct (motive := fun e =>
    Body.Drawn (temporaries ++ leaves) r e → Body.Drawn (temporaries ++ leaves) r eq.rhs)
  · rintro e he ⟨d, hd, x, hlhs, hx, hr⟩
    apply he
    rcases exists_of_mem_replace_removals hx with ⟨hx, -⟩ | ⟨d', hd', y, hlhs', hy, -, hx⟩
    · exact ⟨d, hd, x, hlhs, hx, hr⟩
    · exact ⟨d', hd', y, hlhs', hy, .scalar hd hlhs hx hr⟩
  · exact id

theorem fits_compacted (hfits : (compact temporaries leaves).fits = true) {eq : Equation}
    (heq : eq ∈ temporaries ++ leaves) (hkept : isRemoved temporaries leaves eq = false) :
    (compacted temporaries leaves eq).fits = true := by
  rw [compact_eq, Checked.fits_mapM] at hfits
  exact hfits eq (List.mem_filter.2 ⟨heq, by rw [hkept]; rfl⟩)

theorem filter_compact (htemporaries : ∀ t ∈ temporaries, t.isScalar = true)
    (hleaves : ∀ l ∈ leaves, l.isScalar = false) :
    ((compact temporaries leaves).value.filter fun eq => !eq.isScalar) =
      leaves.map fun l => (compacted temporaries leaves l).value := by
  rw [value_compact, List.filter_map, List.filter_filter, List.filter_append,
    List.filter_eq_nil_iff.2, List.filter_eq_self.2, List.nil_append]
  · intro l hl
    simp [hleaves l hl, isRemoved_of_not_isScalar (hleaves l hl)]
  · intro t ht
    simp [htemporaries t ht]

theorem isScalar_of_before (htemporaries : ∀ t ∈ temporaries, t.isScalar = true)
    (hleaves : ∀ l ∈ leaves, l.isScalar = false) {before after : List Equation} {eq : Equation}
    (hsplit : (compact temporaries leaves).value = before ++ eq :: after)
    (hscalar : eq.isScalar = true) : ∀ e ∈ before, e.isScalar = true := by
  have hfirst : (temporaries ++ leaves).Pairwise fun e e' =>
      e'.isScalar = true → e.isScalar = true := by
    refine List.pairwise_append.2 ⟨?_, ?_, fun t ht _ _ _ => htemporaries t ht⟩
    · exact List.pairwise_of_forall_mem_list fun t ht _ _ _ => htemporaries t ht
    · apply List.pairwise_of_forall_mem_list
      intro _ _ l hl hscalar
      rw [hleaves l hl] at hscalar
      cases hscalar
  have hfirst : (compact temporaries leaves).value.Pairwise fun e e' =>
      e'.isScalar = true → e.isScalar = true := by
    simp only [value_compact, List.pairwise_map, isScalar_compacted]
    exact hfirst.filter _
  rw [hsplit] at hfirst
  exact fun e he => (List.pairwise_append.1 hfirst).2.2 e he eq (List.mem_cons_self ..) hscalar

section Values

variable {K : Type} [Field K] [DecidableEq K] [CharZero K] {calls : Calls K} {base : Memory K}

theorem value_compacted (hholds : ∀ eq ∈ temporaries ++ leaves, eq.Holds calls base)
    {eq : Equation} (hfits : (compacted temporaries leaves eq).fits = true) :
    base.value calls (compacted temporaries leaves eq).value.rhs = base.value calls eq.rhs := by
  have hσ : ∀ a v, (removals temporaries leaves).find? a = some v →
      base.value calls v = base.value calls a := by
    intro a v hav
    obtain ⟨d, hd, hscalar, rfl, rfl⟩ := exists_of_removals hav
    obtain ⟨s, hs⟩ := Equation.exists_symbol_of_isScalar hscalar
    rw [hs]
    exact (hholds d hd s hs).symm
  have hrounds (fuel : Nat) (e : Expr)
      (hfits : (replaceFully (removals temporaries leaves).find? fuel e).fits = true) :
      base.value calls (replaceFully (removals temporaries leaves).find? fuel e).value =
        base.value calls e := by
    induction fuel generalizing e with
    | zero => rfl
    | succ fuel ih =>
      rw [replaceFully, Checked.fits_bind, Bool.and_eq_true] at hfits
      rw [replaceFully, Checked.value_bind]
      have hvalue := Expr.denote_replace (I := base.interpretation calls) (fun _ _ _ _ => rfl) hσ
        hfits.1
      split
      · rfl
      · next hne =>
        rw [if_neg hne] at hfits
        exact (ih _ hfits.2).trans hvalue
  rw [rhs_compacted]
  apply hrounds
  simpa [compacted] using hfits

theorem run_compact_array (h : Body.Ordered (temporaries ++ leaves))
    (htemporaries : ∀ t ∈ temporaries, t.isScalar = true)
    (hleaves : ∀ l ∈ leaves, l.isScalar = false)
    (hindices : ∀ eq ∈ temporaries ++ leaves, eq.AllReferences fun r =>
      ∀ x ∈ Expr.symbolsOfList r.indices, ¬ Body.Assigned (temporaries ++ leaves) x)
    (hfits : (compact temporaries leaves).fits = true) {m : Memory K}
    (hbase : Body.Solves calls m (temporaries ++ leaves) base) :
    (Body.run calls m (compact temporaries leaves).value).array =
      Body.sweep calls base.scalar m.array
        (leaves.map fun l => (compacted temporaries leaves l).value) := by
  rw [← filter_compact htemporaries hleaves, Body.sweep_filter]
  apply Body.run_array calls (ordered_compact h hindices)
  · intro eq' heq' x hx hnot
    obtain ⟨eq, heq, -, rfl⟩ := exists_of_mem_compact heq'
    apply hbase.scalar
    rintro ⟨d, hd, hlhs⟩
    rcases Equation.mem_usedSymbols hx with hx | ⟨r, hr, hx⟩
    · -- An equation that is removed would have been put in.
      exact hnot (assigned_of_mem_compacted h.acyclic hx ⟨d, hd, hlhs⟩)
    · exact allReferences_compacted hindices heq r hr x hx ⟨d, hd, hlhs⟩
  · intro before eq after hsplit x hlhs
    have hscalars := isScalar_of_before htemporaries hleaves hsplit
      (Equation.isScalar_of_symbol hlhs)
    have heq : eq ∈ (compact temporaries leaves).value := by simp [hsplit]
    obtain ⟨d, hd, hkept, rfl⟩ := exists_of_mem_compact heq
    rw [Body.run_array_of_scalars calls hscalars, ← hbase.array]
    have hvalue := value_compacted hbase.holds (fits_compacted hfits hd hkept)
    rw [lhs_compacted] at hlhs
    exact (hbase.holds d hd x hlhs).trans hvalue.symm

end Values

end Temporaries

end Stencil
