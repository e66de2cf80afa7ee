import Stencil.Fusion
import Stencil.Optimization
import Stencil.Proofs.Temporaries.Compact
import Stencil.Proofs.Temporaries.Unfold

/-!
This module contains the effect of optimized clusters. Optimization computes all scalars, with the
temporaries, before the first array element is written. It looks neither at what is written in
between nor at where the scalars of a program are computed. The arrays are the same in the end if
nothing that is read ahead has been changed when its turn would have come.
-/

namespace Stencil

theorem Equation.lhs_ne_sym {eq : Equation} {y : String}
    (h : ∀ x ∈ eq.lhs.symbols ++ eq.rhs.symbols, x ≠ y) : eq.lhs ≠ .sym y := by
  intro hlhs
  apply h y _ rfl
  rw [hlhs]
  exact List.mem_append_left _ (List.mem_cons_self ..)

namespace Body

/--
Scalars are computed once and before they are used, do not have the names of temporaries, and are
neither part of indices nor of operations that are repeated.
-/
structure Separable (eqs : List Equation) : Prop extends Ordered eqs where
  canonical : ∀ eq ∈ eqs, eq.rhs.Canonical
  unnamed : ∀ eq ∈ eqs, ∀ x ∈ eq.lhs.symbols ++ eq.rhs.symbols, ∀ i,
    .sym x ≠ Optimization.temporary i
  indices : ∀ eq ∈ eqs, eq.AllReferences fun r =>
    ∀ x ∈ Expr.symbolsOfList r.indices, ¬ Assigned eqs x
  operands : ∀ o, 1 < (eqs.flatMap fun eq => eq.rhs.operations).count o →
    ∀ x ∈ o.valueSymbols, ¬ Assigned eqs x

/-- What is read ahead of an equation is, at the turn of the equation, as it was at the start. -/
def Undisturbed {K : Type} [Field K] [DecidableEq K] (calls : Calls K) (m : Memory K)
    (eqs : List Equation) : Prop :=
  ∀ before eq after, eqs = before ++ eq :: after →
    ∀ r, (eq.isScalar = true ∧ r ∈ eq.rhs.references) ∨ ReadAhead eqs r eq.rhs →
      (run calls m before).array (m.cell calls r) = m.array (m.cell calls r)

theorem undisturbed_of_unwritten {K : Type} [Field K] [DecidableEq K] {calls : Calls K}
    {m : Memory K} {eqs : List Equation}
    (h : ∀ eq ∈ eqs, ∀ r, (eq.isScalar = true ∧ r ∈ eq.rhs.references) ∨ ReadAhead eqs r eq.rhs →
      ∀ d ∈ eqs, ∀ w, d.write? = some w → w.function ≠ r.function) :
    Undisturbed calls m eqs := by
  intro before eq after hsplit r hr
  apply run_array_of_unwritten
  intro d hd
  apply h eq _ r hr d
  · rw [hsplit]
    exact List.mem_append_left _ hd
  · rw [hsplit]
    exact List.mem_append_right _ (List.mem_cons_self ..)

end Body

namespace Temporaries

open Body

namespace State

def scalars (s : State) : List Equation := s.equations.filter (·.isScalar)

def leaves (s : State) : List Equation := s.equations.filter fun eq => !eq.isScalar

theorem mem_partition {s : State} {eq : Equation} :
    eq ∈ s.scalars ++ s.leaves ↔ eq ∈ s.equations := by
  cases hscalar : eq.isScalar <;> simp [scalars, leaves, hscalar]

theorem assigned_partition {s : State} {x : String} :
    Assigned (s.scalars ++ s.leaves) x ↔ Assigned s.equations x := by
  simp only [Assigned, mem_partition]

theorem solves_partition {K : Type} [Field K] [DecidableEq K] {calls : Calls K} {m base : Memory K}
    (s : State) (h : Solves calls m s.equations base) :
    Solves calls m (s.scalars ++ s.leaves) base where
  array := h.array
  scalar x hx := h.scalar x fun hassigned => hx (assigned_partition.2 hassigned)
  holds eq heq := h.holds eq (mem_partition.1 heq)

end State

structure Prepared (name : Nat → String) (eqs : List Equation) (s : State) : Prop
    extends Eliminated name (Assigned eqs) eqs s where
  separable : Separable eqs
  injective : Function.Injective name
  unnamed : ∀ eq ∈ eqs, ∀ x ∈ eq.lhs.symbols ++ eq.rhs.symbols, ∀ i, x ≠ name i
  indices : ∀ eq ∈ s.equations, eq.AllReferences fun r =>
    ∀ x ∈ Expr.symbolsOfList r.indices, ¬ Assigned eqs x ∧ ∀ i, x ≠ name i

namespace Prepared

variable {name : Nat → String} {eqs : List Equation} {s : State}

theorem lhs_ne_name (h : Prepared name eqs s) {eq : Equation} (heq : eq ∈ eqs) (i : Nat) :
    eq.lhs ≠ .sym (name i) :=
  Equation.lhs_ne_sym fun x hx => h.unnamed eq heq x hx i

theorem exists_number (h : Prepared name eqs s) {t : Equation} (ht : t ∈ s.temporaries) :
    ∃ i, t.lhs = .sym (name i) := by
  have hmem := List.mem_map_of_mem (f := Equation.lhs) ht
  rw [h.numbered] at hmem
  obtain ⟨i, -, hi⟩ := List.mem_map.1 hmem
  exact ⟨i, hi.symm⟩

theorem assigned_cases (h : Prepared name eqs s) {x : String} (hx : Assigned s.equations x) :
    Assigned eqs x ∨ ∃ i, x = name i := by
  obtain ⟨eq, heq, hlhs⟩ := hx
  rcases List.mem_append.1 heq with ht | hp
  · obtain ⟨i, hi⟩ := h.exists_number ht
    exact .inr ⟨i, Expr.sym.inj (hlhs.symm.trans hi)⟩
  · obtain ⟨eq₀, heq₀, hunfolds⟩ := exists_mem_right h.program hp
    exact .inl ⟨eq₀, heq₀, hunfolds.lhs ▸ hlhs⟩

theorem assigned_of_body (h : Prepared name eqs s) {x : String} (hx : Assigned eqs x) :
    Assigned s.equations x := by
  obtain ⟨eq, heq, hlhs⟩ := hx
  obtain ⟨p, hp, hunfolds⟩ := exists_mem_left h.program heq
  exact ⟨p, List.mem_append_right _ hp, hunfolds.lhs.trans hlhs⟩

theorem not_assigned_of_mem_indices (h : Prepared name eqs s) {eq : Equation}
    (heq : eq ∈ s.equations) :
    eq.AllReferences fun r => ∀ x ∈ Expr.symbolsOfList r.indices, ¬ Assigned s.equations x := by
  intro r hr x hx hassigned
  obtain ⟨hnot, hunnamed⟩ := h.indices eq heq r hr x hx
  rcases h.assigned_cases hassigned with hassigned | ⟨i, hi⟩
  · exact hnot hassigned
  · exact hunnamed i hi

theorem mem_valueSymbols_of_used (h : Prepared name eqs s) {eq : Equation} (heq : eq ∈ s.equations)
    {x : String} (hx : x ∈ eq.usedSymbols) (hassigned : Assigned s.equations x) :
    x ∈ eq.rhs.valueSymbols := by
  rcases Equation.mem_usedSymbols hx with hx | ⟨r, hr, hx⟩
  · exact hx
  · exact absurd hassigned (h.not_assigned_of_mem_indices heq r hr x hx)

theorem pairwise_temporaries (h : Prepared name eqs s) :
    s.temporaries.Pairwise fun t t' =>
      ∃ i j, i < j ∧ t.lhs = .sym (name i) ∧ t'.lhs = .sym (name j) := by
  have hlhs : (s.temporaries.map (·.lhs)).Pairwise fun a b =>
      ∃ i j, i < j ∧ a = .sym (name i) ∧ b = .sym (name j) := by
    rw [h.numbered, List.pairwise_map]
    exact List.pairwise_lt_range.imp fun hij => ⟨_, _, hij, rfl, rfl⟩
  exact List.pairwise_map.1 hlhs

theorem used_of_unfolds (h : Prepared name eqs s) {p eq : Equation} (hp : p ∈ s.program)
    (hunfolds : Unfolds name s eqs p eq) {d : Equation} (hd : d ∈ s.program) {x : String}
    (hx : d.lhs = .sym x) (hmem : x ∈ p.usedSymbols) : x ∈ eq.usedSymbols := by
  have hvalue := h.mem_valueSymbols_of_used (List.mem_append_right _ hp) hmem
    ⟨d, List.mem_append_right _ hd, hx⟩
  rcases hunfolds.symbols x hvalue with hvalue | ⟨i, rfl⟩
  · exact List.mem_append_left _ (Expr.mem_symbols.2 (.inl hvalue))
  · obtain ⟨d₀, hd₀, hunfolds₀⟩ := exists_mem_right h.program hd
    exact absurd (hunfolds₀.lhs.symm.trans hx) (h.lhs_ne_name hd₀ i)

theorem ordered (h : Prepared name eqs s) : Ordered s.equations := by
  have hprogram {p : Equation} (hp : p ∈ s.program) :
      ∃ eq ∈ eqs, Unfolds name s eqs p eq := exists_mem_right h.program hp
  rw [State.equations]
  constructor
  case writes =>
    refine List.forall_mem_append.2 ⟨fun t ht => ?_, fun p hp => ?_⟩
    · obtain ⟨i, hi⟩ := h.exists_number ht
      exact .inr ⟨Equation.isScalar_of_symbol hi, h.plain t ht⟩
    · obtain ⟨eq, heq, hunfolds⟩ := hprogram hp
      have hwrites := h.separable.writes eq heq
      rwa [Equation.isTensor, Equation.write?, Equation.isScalar, ← hunfolds.lhs,
        ← hunfolds.isIncrement] at hwrites
  case once =>
    refine List.pairwise_append.2 ⟨?_, ?_, fun t ht p hp x hx hlhs => ?_⟩
    · apply h.pairwise_temporaries.imp
      rintro t t' ⟨i, j, hij, hi, hj⟩ x hx hlhs
      have := h.injective (Expr.sym.inj ((hi.symm.trans hlhs).trans (hx.symm.trans hj)))
      omega
    · apply pairwise_of_forall₂ h.program h.separable.once
      intro p eq p' eq' hunfolds hunfolds' honce x hx hlhs
      exact honce x (hunfolds'.lhs.symm.trans hx) (hunfolds.lhs.symm.trans hlhs)
    · obtain ⟨i, hi⟩ := h.exists_number ht
      obtain ⟨eq, heq, hunfolds⟩ := hprogram hp
      apply h.lhs_ne_name heq i
      rw [← hunfolds.lhs, hx, ← hlhs, hi]
  case before =>
    refine List.pairwise_append.2 ⟨?_, ?_, fun t ht p hp x hx hmem => ?_⟩
    · apply h.pairwise_temporaries.imp_of_mem
      rintro t t' ht ht' ⟨i, j, hij, hi, hj⟩ x hx hmem
      have hvalue := h.mem_valueSymbols_of_used (List.mem_append_left _ ht) hmem
        ⟨t', List.mem_append_left _ ht', hx⟩
      obtain rfl := Expr.sym.inj (hx.symm.trans hj)
      exact h.earlier t ht i hi j (by omega) hvalue
    · have hprogram : List.Forall₂ (fun p eq => p ∈ s.program ∧ Unfolds name s eqs p eq)
          s.program eqs :=
        forall₂_imp_of_mem h.program fun p hp _ _ hunfolds => ⟨hp, hunfolds⟩
      apply pairwise_of_forall₂ hprogram h.separable.before
      rintro p eq p' eq' ⟨hp, hunfolds⟩ ⟨hp', hunfolds'⟩ hbefore x hx hmem
      have hused := h.used_of_unfolds hp hunfolds hp' hx hmem
      exact hbefore x (hunfolds'.lhs.symm.trans hx) hused
    · have hvalue := h.mem_valueSymbols_of_used (List.mem_append_left _ ht) hmem
        ⟨p, List.mem_append_right _ hp, hx⟩
      obtain ⟨eq, heq, hunfolds⟩ := hprogram hp
      exact h.unmarked t ht x hvalue ⟨eq, heq, hunfolds.lhs.symm.trans hx⟩
  case own =>
    refine List.forall_mem_append.2 ⟨fun t ht x hx hmem => ?_, fun p hp x hx hmem => ?_⟩
    · have hvalue := h.mem_valueSymbols_of_used (List.mem_append_left _ ht) hmem
        ⟨t, List.mem_append_left _ ht, hx⟩
      obtain ⟨i, hi⟩ := h.exists_number ht
      obtain rfl := Expr.sym.inj (hx.symm.trans hi)
      exact h.earlier t ht i hi i (by omega) hvalue
    · obtain ⟨eq, heq, hunfolds⟩ := hprogram hp
      have hused := h.used_of_unfolds hp hunfolds hp hx hmem
      exact h.separable.own eq heq x (hunfolds.lhs.symm.trans hx) hused

theorem not_assigned_of_mem_references (h : Prepared name eqs s) {eq : Equation} (heq : eq ∈ eqs)
    {r : Reference} (hr : r ∈ eq.rhs.references) :
    ∀ x ∈ Expr.symbolsOfList r.indices, ¬ Assigned s.equations x := by
  intro x hx hassigned
  rcases h.assigned_cases hassigned with hassigned | ⟨i, hi⟩
  · exact h.separable.indices eq heq r (List.mem_append_right _ hr) x hx hassigned
  · apply h.unnamed eq heq x _ i hi
    exact List.mem_append_right _ (Expr.mem_symbols.2 (.inr ⟨r, hr, hx⟩))

theorem unnamed_of_used (h : Prepared name eqs s) {eq : Equation} (heq : eq ∈ eqs) {x : String}
    (hx : x ∈ eq.usedSymbols) (i : Nat) : x ≠ name i := by
  apply h.unnamed eq heq x _ i
  rcases List.mem_append.1 hx with hx | hx
  · exact List.mem_append_right _ hx
  · apply List.mem_append_left
    cases hw : eq.write? with
    | none => simp [hw] at hx
    | some w =>
      rw [hw] at hx
      rw [Equation.write?_eq_some.1 hw]
      exact hx

section Values

variable {K : Type} [Field K] [DecidableEq K] {calls : Calls K} {m base : Memory K}

theorem holds_body (h : Prepared name eqs s) (hholds : ∀ eq ∈ s.equations, eq.Holds calls base) :
    ∀ eq ∈ eqs, eq.Holds calls base := by
  intro eq heq x hx
  obtain ⟨p, hp, hunfolds⟩ := exists_mem_left h.program heq
  rw [← hunfolds.value calls base fun t ht => hholds t (List.mem_append_left _ ht)]
  exact hholds p (List.mem_append_right _ hp) x (hunfolds.lhs.trans hx)

theorem scalar_eq (h : Prepared name eqs s) (hbase : Solves calls m s.equations base)
    {eq : Equation} (heq : eq ∈ eqs) {x : String} (hx : x ∈ eq.usedSymbols)
    (hnot : ¬ Assigned eqs x) : base.scalar x = m.scalar x := by
  apply hbase.scalar
  intro hassigned
  rcases h.assigned_cases hassigned with hassigned | ⟨i, hi⟩
  · exact hnot hassigned
  · exact h.unnamed_of_used heq hx i hi

theorem cell_eq (h : Prepared name eqs s) (hbase : Solves calls m s.equations base)
    {eq : Equation} (heq : eq ∈ eqs) {r : Reference} (hr : r ∈ eq.rhs.references) :
    base.cell calls r = m.cell calls r := by
  apply Memory.cell_congr
  · exact fun x hx => hbase.scalar x (h.not_assigned_of_mem_references heq hr x hx)
  · simp [hbase.array]

theorem run_array_before (h : Prepared name eqs s) (hbase : Solves calls m s.equations base)
    (hundisturbed : Undisturbed calls m eqs) {before after : List Equation}
    (hsplit : eqs = before ++ after) :
    (run calls m before).array = sweep calls base.scalar m.array before := by
  have hmem {eq : Equation} (heq : eq ∈ before) : eq ∈ eqs := by
    rw [hsplit]
    exact List.mem_append_left _ heq
  have hsub : before.Sublist eqs := hsplit ▸ List.sublist_append_left before after
  apply run_array calls (h.separable.toOrdered.sublist hsub)
  · intro eq heq x hx hnot
    apply h.scalar_eq hbase (hmem heq) hx
    rintro ⟨e, he, hlhs⟩
    rw [hsplit] at he
    rcases List.mem_append.1 he with he | he
    · exact hnot ⟨e, he, hlhs⟩
    · have hbefore := h.separable.before
      rw [hsplit] at hbefore
      exact (List.pairwise_append.1 hbefore).2.2 eq heq e he x hlhs hx
  · intro before' eq after' hsplit' x hlhs
    have heq : eq ∈ eqs := hmem (by simp [hsplit'])
    have hscalar := Equation.isScalar_of_symbol hlhs
    have hholds := h.holds_body hbase.holds eq heq x hlhs
    refine hholds.trans (Memory.value_congr calls (fun _ _ => rfl) fun r hr => ?_)
    rw [h.cell_eq hbase heq hr, hbase.array]
    symm
    apply hundisturbed before' eq (after' ++ after) _ r (.inl ⟨hscalar, hr⟩)
    rw [hsplit, hsplit', List.append_assoc, List.cons_append]

section Turn

-- The memory `now` has the arrays at the turn of an equation, and the scalars that belong to them.
-- Those that the equation uses are the same as in `base`.
variable {array : GridFunction × List K → K} {now : Memory K} {eq : Equation}
  (h : Prepared name eqs s) (hbase : Solves calls m s.equations base)
  (hnow : Solves calls ⟨array, m.scalar⟩ s.equations now) (heq : eq ∈ eqs)
  (hahead : ∀ r, ReadAhead eqs r eq.rhs → array (m.cell calls r) = m.array (m.cell calls r))

include h hbase hnow heq hahead

theorem array_eq_of_readAhead {r : Reference} (hr : ReadAhead eqs r eq.rhs) :
    (∀ x ∈ Expr.symbolsOfList r.indices, ¬ Assigned s.equations x) ∧
      base.array (base.cell calls r) = now.array (base.cell calls r) := by
  obtain ⟨d, hd, hrd⟩ := hr.exists_reference heq
  refine ⟨h.not_assigned_of_mem_references hd hrd, ?_⟩
  rw [h.cell_eq hbase hd hrd, hbase.array, hnow.array]
  exact (hahead r hr).symm

theorem value_body_eq :
    Memory.value calls ⟨now.array, base.scalar⟩ eq.rhs = now.value calls eq.rhs := by
  have hscalar : ∀ d ∈ eqs, ∀ x ∈ d.rhs.symbols, ¬ Assigned eqs x →
      base.scalar x = now.scalar x := by
    intro d hd x hx hnot
    have hused : x ∈ d.usedSymbols := List.mem_append_left _ hx
    exact (h.scalar_eq hbase hd hused hnot).trans (h.scalar_eq hnow hd hused hnot).symm
  apply value_eq_of_drawn h.separable.toOrdered (h.holds_body hbase.holds)
    (h.holds_body hnow.holds) hscalar (hscalar eq heq)
  · exact fun r hr => h.separable.indices eq heq r (List.mem_append_right _ hr)
  · intro r hr
    obtain ⟨hindices, harray⟩ := h.array_eq_of_readAhead hbase hnow heq hahead (.inl hr)
    exact ⟨fun x hx hassigned => hindices x hx (h.assigned_of_body hassigned), harray⟩

theorem value_compacted_eq {p : Equation} (hp : p ∈ s.program)
    (hunfolds : Unfolds name s eqs p eq) :
    Memory.value calls ⟨now.array, base.scalar⟩ (compacted s.scalars s.leaves p).value.rhs =
      now.value calls (compacted s.scalars s.leaves p).value.rhs := by
  have hagree : ∀ x, ¬ Assigned s.equations x → base.scalar x = now.scalar x :=
    fun x hx => (hbase.scalar x hx).trans (hnow.scalar x hx).symm
  apply value_eq_of_drawn h.ordered hbase.holds hnow.holds
  · exact fun _ _ x _ => hagree x
  · exact fun x _ => hagree x
  · intro r hr
    apply allReferences_compacted _ (State.mem_partition.2 (List.mem_append_right _ hp)) r
    · exact List.mem_append_right _ hr
    · exact fun eq heq => h.not_assigned_of_mem_indices (State.mem_partition.1 heq)
  · intro r hr
    apply h.array_eq_of_readAhead hbase hnow heq hahead
    apply hunfolds.drawn
    have hpartition := drawn_compacted (hr.mono fun _ => State.mem_partition.2)
    exact hpartition.mono fun _ => State.mem_partition.1

end Turn

variable [CharZero K]

theorem perform_eq (h : Prepared name eqs s) (hbase : Solves calls m s.equations base)
    (hfits : (compact s.scalars s.leaves).fits = true) {eq p : Equation} (heq : eq ∈ eqs)
    (hp : p ∈ s.program) (hunfolds : Unfolds name s eqs p eq)
    {array : GridFunction × List K → K}
    (hahead : ∀ r, ReadAhead eqs r eq.rhs → array (m.cell calls r) = m.array (m.cell calls r)) :
    ((compacted s.scalars s.leaves p).value.perform calls ⟨array, base.scalar⟩).array =
      (eq.perform calls ⟨array, base.scalar⟩).array := by
  have hlhs : (compacted s.scalars s.leaves p).value.lhs = eq.lhs := by
    rw [lhs_compacted, hunfolds.lhs]
  have hincrement : (compacted s.scalars s.leaves p).value.isIncrement = eq.isIncrement := by
    rw [isIncrement_compacted, hunfolds.isIncrement]
  rcases h.separable.writes eq heq with htensor | ⟨hscalar, -⟩
  · obtain ⟨now, hnow⟩ := exists_solves calls h.ordered ⟨array, m.scalar⟩
    have hcompacted := h.value_compacted_eq hbase hnow heq hahead hp hunfolds
    have hbody := h.value_body_eq hbase hnow heq hahead
    have hkept : isRemoved s.scalars s.leaves p = false := by
      apply isRemoved_of_not_isScalar
      obtain ⟨w, hw⟩ := Equation.exists_write_of_isTensor htensor
      rw [Equation.isScalar, hunfolds.lhs, Equation.write?_eq_some.1 hw]
      rfl
    have hvalue : now.value calls (compacted s.scalars s.leaves p).value.rhs =
        now.value calls p.rhs := by
      apply value_compacted fun eq heq => hnow.holds eq (State.mem_partition.1 heq)
      exact fits_compacted hfits (State.mem_partition.2 (List.mem_append_right _ hp)) hkept
    have harray : now.array = array := hnow.array
    rw [harray] at hcompacted hbody
    refine Equation.array_perform_congr htensor hlhs hincrement rfl ?_ fun _ _ => rfl
    rw [hcompacted, hbody, hvalue]
    exact hunfolds.value calls now fun t ht => hnow.holds t (List.mem_append_left _ ht)
  · have hscalar' : (compacted s.scalars s.leaves p).value.isScalar = true := by
      rwa [Equation.isScalar, hlhs]
    rw [Equation.array_perform_of_isScalar hscalar, Equation.array_perform_of_isScalar hscalar']

theorem run_compact_eq (h : Prepared name eqs s)
    (hfits : (compact s.scalars s.leaves).fits = true) (hundisturbed : Undisturbed calls m eqs) :
    (run calls m (compact s.scalars s.leaves).value).array = (run calls m eqs).array := by
  obtain ⟨base, hbase⟩ := exists_solves calls h.ordered m
  have hindices : ∀ eq ∈ s.scalars ++ s.leaves, eq.AllReferences fun r =>
      ∀ x ∈ Expr.symbolsOfList r.indices, ¬ Assigned (s.scalars ++ s.leaves) x := by
    intro eq heq r hr x hx hassigned
    exact h.not_assigned_of_mem_indices (State.mem_partition.1 heq) r hr x hx
      (State.assigned_partition.1 hassigned)
  have hleaves : s.leaves = s.program.filter fun eq => !eq.isScalar := by
    rw [State.leaves, State.equations, List.filter_append, List.filter_eq_nil_iff.2,
      List.nil_append]
    intro t ht
    obtain ⟨i, hi⟩ := h.exists_number ht
    simp [Equation.isScalar_of_symbol hi]
  have hprogram : (s.leaves.map fun l => (compacted s.scalars s.leaves l).value) =
      (s.program.map fun p => (compacted s.scalars s.leaves p).value).filter
        fun eq => !eq.isScalar := by
    have hsame : ((fun eq : Equation => !eq.isScalar) ∘
        fun p => (compacted s.scalars s.leaves p).value) = fun p => !p.isScalar := by
      funext p
      rw [Function.comp_apply, isScalar_compacted]
    rw [List.filter_map, hsame, ← hleaves]
  have hordered : Ordered (s.scalars ++ s.leaves) := h.ordered.partition
  rw [run_compact_array hordered _ _ hindices hfits (s.solves_partition hbase),
    hprogram, sweep_filter,
    h.run_array_before hbase hundisturbed (List.append_nil eqs).symm]
  · have hforall : List.Forall₂ (fun p' eq => ∃ p ∈ s.program, Unfolds name s eqs p eq ∧
        p' = (compacted s.scalars s.leaves p).value)
        (s.program.map fun p => (compacted s.scalars s.leaves p).value) eqs := by
      rw [List.forall₂_map_left_iff]
      exact forall₂_imp_of_mem h.program fun p hp _ _ hunfolds => ⟨p, hp, hunfolds, rfl⟩
    apply sweep_eq_of_forall₂ calls hforall
    rintro before eq after hsplit _ ⟨p, hp, hunfolds, rfl⟩
    apply h.perform_eq hbase hfits (by simp [hsplit]) hp hunfolds
    intro r hr
    rw [← h.run_array_before hbase hundisturbed hsplit]
    exact hundisturbed before eq after hsplit r (.inr hr)
  · exact fun t ht => (List.mem_filter.1 ht).2
  · exact fun l hl => by simpa using (List.mem_filter.1 hl).2

end Values

end Prepared

section Names

variable {name : Nat → String} {eqs : List Equation} (h : Separable eqs)
  (hunnamed : ∀ eq ∈ eqs, ∀ x ∈ eq.lhs.symbols ++ eq.rhs.symbols, ∀ i, x ≠ name i)

include h hunnamed

theorem allReferences_unnamed : ∀ eq ∈ eqs, eq.AllReferences fun r =>
    ∀ x ∈ Expr.symbolsOfList r.indices, ¬ Assigned eqs x ∧ ∀ i, x ≠ name i := by
  intro eq heq r hr x hx
  refine ⟨h.indices eq heq r hr x hx, hunnamed eq heq x ?_⟩
  rw [List.mem_append] at hr ⊢
  rcases hr with hr | hr
  · exact .inl (Expr.mem_symbols.2 (.inr ⟨r, hr, hx⟩))
  · exact .inr (Expr.mem_symbols.2 (.inr ⟨r, hr, hx⟩))

theorem consistent_of_separable : Consistent name (Assigned eqs) ⟨[], eqs⟩ := by
  have hvalue : ∀ eq ∈ eqs, ∀ i, name i ∉ eq.rhs.valueSymbols := by
    intro eq heq i hx
    apply hunnamed eq heq (name i) _ i rfl
    exact List.mem_append_right _ (Expr.mem_symbols.2 (.inl hx))
  constructor
  case canonical => exact h.canonical
  case numbered => rfl
  case plain => simp
  case program =>
    intro eq heq
    refine ⟨?_, fun i => Equation.lhs_ne_sym fun x hx => hunnamed eq heq x hx i⟩
    rcases h.writes eq heq with htensor | ⟨hscalar, -⟩
    · obtain ⟨w, hw⟩ := Equation.exists_write_of_isTensor htensor
      rw [Equation.write?_eq_some.1 hw]
      rfl
    · obtain ⟨x, hx⟩ := Equation.exists_symbol_of_isScalar hscalar
      rw [hx]
      rfl
  case assigned => exact fun eq heq x hx => ⟨eq, heq, hx⟩
  case indices =>
    exact fun eq heq r hr x hx => (allReferences_unnamed h hunnamed eq heq r hr x hx).2
  case fresh => exact fun eq heq i _ => hvalue eq heq i
  case once =>
    intro o x hx hmark
    apply Nat.le_of_not_lt
    intro hcount
    rcases hmark with hassigned | ⟨i, rfl⟩
    · exact h.operands o hcount x hx hassigned
    · have ho : o ∈ (⟨[], eqs⟩ : State).operations :=
        List.count_pos_iff.1 (Nat.zero_lt_of_lt hcount)
      obtain ⟨-, eq, heq, hwithin⟩ := State.exists_within_of_mem_operations ho
      rw [Expr.mem_valueSymbols] at hx
      exact hvalue eq heq i (Expr.mem_valueSymbols.2 (hx.trans hwithin))
  case later => simp
  case unmarked => simp

theorem exists_prepared (hname : Function.Injective name) :
    ∃ s : State, (eliminate (fun i => .sym (name i)) eqs).value = s.equations ∧
      Prepared name eqs s := by
  have hnot (i : Nat) : ¬ Assigned eqs (name i) := by
    rintro ⟨eq, heq, hlhs⟩
    exact Equation.lhs_ne_sym (fun x hx => hunnamed eq heq x hx i) hlhs
  obtain ⟨s, hs, heliminated⟩ := exists_eliminated hname hnot (consistent_of_separable h hunnamed)
    fun eq heq x hx => hunnamed eq heq x (List.mem_append_right _ hx)
  refine ⟨s, hs, heliminated, h, hname, hunnamed, ?_⟩
  rw [← hs]
  exact allReferences_eliminate (fun _ => rfl) (allReferences_unnamed h hunnamed)

end Names

end Temporaries

namespace Optimization

theorem temporary_injective : Function.Injective temporary := by
  intro i j hij
  have hrepr : i.repr = j.repr := (String.append_right_inj "r").1 (Expr.sym.inj hij)
  rw [Nat.repr_eq_ofList_toDigits, Nat.repr_eq_ofList_toDigits, String.ofList_inj] at hrepr
  rw [← Nat.ofDigitChars_ten_toDigits (n := i), hrepr, Nat.ofDigitChars_ten_toDigits]

section Values

variable {K : Type} [Field K] [DecidableEq K] [CharZero K]

theorem run_optimizeEquations {first : Nat} {eqs : List Equation}
    (hfits : (optimizeEquations first eqs).fits = true) (h : Body.Separable eqs)
    {calls : Calls K} {m : Memory K} (hundisturbed : Body.Undisturbed calls m eqs) :
    (Body.run calls m (optimizeEquations first eqs).value.1).array =
      (Body.run calls m eqs).array := by
  have hname : Function.Injective fun i => s!"r{first + i}" :=
    fun i j hij => Nat.add_left_cancel (temporary_injective (congrArg Expr.sym hij))
  have hunnamed : ∀ eq ∈ eqs, ∀ x ∈ eq.lhs.symbols ++ eq.rhs.symbols, ∀ i,
      x ≠ s!"r{first + i}" :=
    fun eq heq x hx i hxi => h.unnamed eq heq x hx (first + i) (congrArg Expr.sym hxi)
  obtain ⟨s, hs, hprepared⟩ := Temporaries.exists_prepared h hunnamed hname
  have hs : (Temporaries.eliminate (fun i => temporary (first + i)) eqs).value = s.equations := hs
  have hpartition : s.equations.partition (·.isScalar) = (s.scalars, s.leaves) := by
    rw [List.partition_eq_filter_filter]
    rfl
  unfold optimizeEquations at hfits ⊢
  rw [Checked.fits_bind, Bool.and_eq_true, hs, hpartition] at hfits
  rw [Checked.value_bind, hs, hpartition]
  apply hprepared.run_compact_eq _ hundisturbed
  simpa using hfits.2

end Values

theorem forall₂_optimizeFrom {R : Cluster → Cluster → Prop}
    (hR : ∀ c first, (optimizeEquations first c.equations).fits = true →
      R c { c with equations := (optimizeEquations first c.equations).value.1 })
    {cs : List Cluster} {first : Nat} (hfits : (optimizeFrom first cs).fits = true) :
    List.Forall₂ R cs (optimizeFrom first cs).value := by
  induction cs generalizing first with
  | nil => exact .nil
  | cons c cs ih =>
    simp only [optimizeFrom, Checked.fits_bind, Checked.value_bind, Bool.and_eq_true] at hfits ⊢
    exact .cons (hR c first hfits.1) (ih hfits.2.1)

/--
Optimization keeps what a cluster does to the arrays at a point, if its body is separable and
nothing that is read ahead is disturbed.
-/
theorem run_optimize_of_undisturbed {cs : List Cluster}
    (hfits : (optimize .basic cs).fits = true) :
    List.Forall₂ (fun c c' => Body.Separable c.equations →
      ∀ (K : Type) [Field K] [DecidableEq K] [CharZero K] (calls : Calls K) (m : Memory K),
        Body.Undisturbed calls m c.equations →
          (Body.run calls m c'.equations).array = (Body.run calls m c.equations).array)
      cs (optimize .basic cs).value := by
  rw [optimize] at hfits ⊢
  refine forall₂_optimizeFrom ?_ hfits
  intro c first hfits h K _ _ _ calls m hundisturbed
  dsimp only
  exact run_optimizeEquations hfits h hundisturbed

theorem sym_ne_temporary {x : String} (hx : x.toList.head? ≠ some 'r') (i : Nat) :
    .sym x ≠ temporary i := by
  intro h
  apply hx
  have hname : x = "r" ++ toString i := Expr.sym.inj h
  rw [hname, String.toList_append]
  rfl

section Products

def element (name : String) : Expr := .access (.line name) [.sym "x"]

/-- `q = f(v[x]); u[x] = q + v[x] * w[x]; z[x] += u[x] + v[x] * w[x]`. -/
def products : List Equation :=
  [⟨.sym "q", .call "f" [element "v"], false⟩,
    ⟨element "u", .add [.sym "q", .mul [element "v", element "w"]], false⟩,
    ⟨element "z", .add [element "u", .mul [element "v", element "w"]], true⟩]

theorem canonical_element (name : String) : (element name).Canonical :=
  .access _ (by simp [Expr.Canonical.sym])

theorem canonical_products : ∀ eq ∈ products, eq.rhs.Canonical := by
  have hproduct : (Expr.mul [element "v", element "w"]).Canonical := by
    refine .mul (by simp [canonical_element]) ⟨?_, ?_, ?_, ?_, ?_⟩ <;> decide +kernel
  simp only [products, List.forall_mem_cons, List.not_mem_nil, false_imp_iff, implies_true,
    and_true]
  refine ⟨.call "f" (by simp [canonical_element]), ?_, ?_⟩
  · refine .add (by simp [Expr.Canonical.sym, hproduct]) ⟨?_, ?_, ?_, ?_, ?_⟩ <;> decide +kernel
  · refine .add (by simp [canonical_element, hproduct]) ⟨?_, ?_, ?_, ?_, ?_⟩ <;> decide +kernel

theorem separable_products : Body.Separable products where
  writes := by decide +kernel
  once := by simp [products, element]
  before := by simp [products, element]
  own := by
    have hown : "q" ∉ (⟨.sym "q", .call "f" [element "v"], false⟩ : Equation).usedSymbols := by
      decide +kernel
    simpa [products, element] using hown
  canonical := canonical_products
  unnamed eq heq x hx := by
    have hnames : ∀ eq ∈ products, ∀ x ∈ eq.lhs.symbols ++ eq.rhs.symbols,
        x.toList.head? ≠ some 'r' := by
      decide +kernel
    exact sym_ne_temporary (hnames eq heq x hx)
  indices := by
    unfold Equation.AllReferences Body.Assigned
    decide +kernel
  operands o hcount := by
    have hall : ∀ o ∈ products.flatMap fun eq => eq.rhs.operations,
        1 < (products.flatMap fun eq => eq.rhs.operations).count o →
          ∀ x ∈ o.valueSymbols, ¬ ∃ eq ∈ products, eq.lhs = .sym x := by
      decide +kernel
    exact hall o (List.count_pos_iff.1 (Nat.zero_lt_of_lt hcount)) hcount

theorem undisturbed_products {K : Type} [Field K] [DecidableEq K] (calls : Calls K)
    (m : Memory K) : Body.Undisturbed calls m products := by
  apply Body.undisturbed_of_unwritten
  intro eq heq r hr
  have hfunction : r.function = .line "v" ∨ r.function = .line "w" := by
    have hscalars : ∀ eq ∈ products, eq.isScalar = true → eq.rhs.valueSymbols = [] ∧
        ∀ r ∈ eq.rhs.references, r.function = .line "v" ∨ r.function = .line "w" := by
      decide +kernel
    have hrepeated : ∀ eq ∈ products, ∀ o ∈ eq.rhs.operations,
        1 < (products.flatMap fun eq => eq.rhs.operations).count o →
          ∀ r ∈ o.references, r.function = .line "v" ∨ r.function = .line "w" := by
      decide +kernel
    rcases hr with ⟨hscalar, hr⟩ | ⟨d, hd, x, hlhs, -, hr⟩ | ⟨o, ho, hcount, hr⟩
    · exact (hscalars eq heq hscalar).2 r hr
    · obtain ⟨hnone, hreferences⟩ := hscalars d hd (Equation.isScalar_of_symbol hlhs)
      cases hr with
      | element hr => exact hreferences r hr
      | scalar _ _ hx _ => simp [hnone] at hx
    · exact hrepeated eq heq o ho hcount r hr
  have hwrites : ∀ d ∈ products, ∀ w ∈ d.write?,
      w.function ≠ .line "v" ∧ w.function ≠ .line "w" := by
    decide +kernel
  intro d hd w hw hsame
  obtain ⟨hv, hw⟩ := hwrites d hd w hw
  rcases hfunction with hr | hr
  · exact hv (hsame.trans hr)
  · exact hw (hsame.trans hr)

/-- One temporary is computed first; what `z` is incremented by has just been written. -/
theorem run_optimize_of_undisturbed_products :
    ∃ clusters,
      (Cluster.ofProgram true (Equation.lowerAll products .empty).value).run.value = .ok clusters ∧
        clusters.map (·.equations) = [products] ∧
        (optimize .basic clusters).value.map (·.equations.length) = [4] ∧
        ∀ (calls : Calls Rat) (m : Memory Rat),
          List.Forall₂ (fun c c' =>
            (Body.run calls m c'.equations).array = (Body.run calls m c.equations).array)
            clusters (optimize .basic clusters).value := by
  have hresult : (Cluster.ofProgram true (Equation.lowerAll products .empty).value).run.value.map
      (fun cs => (cs.map (·.equations), (optimize .basic cs).fits,
        (optimize .basic cs).value.map (·.equations.length))) = .ok ([products], true, [4]) := by
    decide +kernel
  cases hfuse : (Cluster.ofProgram true (Equation.lowerAll products .empty).value).run.value with
  | error e =>
    rw [hfuse] at hresult
    cases hresult
  | ok clusters =>
    rw [hfuse] at hresult
    obtain ⟨hequations, hresult⟩ := Prod.mk.inj (Except.ok.inj hresult)
    obtain ⟨hfits, hlengths⟩ := Prod.mk.inj hresult
    refine ⟨clusters, rfl, hequations, hlengths, fun calls m => ?_⟩
    apply forall₂_imp_of_mem (run_optimize_of_undisturbed hfits)
    intro c hc c' _ hrun
    have hbody : c.equations = products := by
      have hmem := List.mem_map_of_mem (f := Cluster.equations) hc
      rw [hequations] at hmem
      exact List.mem_singleton.1 hmem
    apply hrun (hbody ▸ separable_products) Rat
    exact hbody ▸ undisturbed_products calls m

end Products

section StaleSum

/-- `u[x] = v[x] + w[x]; v[x] = 1; z[x] = v[x] + w[x]`. -/
def staleSum : List Equation :=
  [⟨element "u", .add [element "v", element "w"], false⟩,
    ⟨element "v", .num 1, false⟩,
    ⟨element "z", .add [element "v", element "w"], false⟩]

/-- The sum is computed once, before `v` is written. -/
theorem run_optimize_ne_staleSum :
    ∃ clusters,
      (Cluster.ofProgram true (Equation.lowerAll staleSum .empty).value).run.value =
        .ok clusters ∧
        ¬ List.Forall₂ (fun c c' =>
          (Body.run (⟨0, 0⟩ : Calls Rat) ⟨0, 0⟩ c'.equations).array =
            (Body.run ⟨0, 0⟩ ⟨0, 0⟩ c.equations).array)
          clusters (optimize .basic clusters).value := by
  have hresult :
      (Cluster.ofProgram true (Equation.lowerAll staleSum .empty).value).run.value.map
        (fun cs => (cs.map fun c =>
            (Body.run (⟨0, 0⟩ : Calls Rat) ⟨0, 0⟩ c.equations).array (.line "z", [0]),
          (optimize .basic cs).value.map fun c =>
            (Body.run (⟨0, 0⟩ : Calls Rat) ⟨0, 0⟩ c.equations).array (.line "z", [0]))) =
          .ok ([1], [0]) := by
    decide +kernel
  cases hfuse : (Cluster.ofProgram true
      (Equation.lowerAll staleSum .empty).value).run.value with
  | error e =>
    rw [hfuse] at hresult
    cases hresult
  | ok clusters =>
    rw [hfuse] at hresult
    obtain ⟨hbody, hoptimized⟩ := Prod.mk.inj (Except.ok.inj hresult)
    refine ⟨clusters, rfl, fun hall => ?_⟩
    have hsame : (clusters.map fun c =>
        (Body.run (⟨0, 0⟩ : Calls Rat) ⟨0, 0⟩ c.equations).array (.line "z", [0])) =
          (optimize .basic clusters).value.map fun c =>
            (Body.run (⟨0, 0⟩ : Calls Rat) ⟨0, 0⟩ c.equations).array (.line "z", [0]) := by
      rw [← List.forall₂_eq_eq_eq, List.forall₂_map_left_iff, List.forall₂_map_right_iff]
      exact hall.imp fun c c' h => (congrFun h _).symm
    rw [hbody, hoptimized] at hsame
    cases hsame

end StaleSum

end Optimization

end Stencil
