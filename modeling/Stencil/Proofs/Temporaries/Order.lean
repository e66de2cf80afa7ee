import Stencil.Proofs.Temporaries.Bindings

/-!
This module contains the order of temporaries. Those of one elimination are defined in the order of
their numbers and from earlier ones only. Those of different clusters are numbered one after the
other, so that no temporary belongs to two clusters.
-/

namespace Stencil

def Equation.AllSymbols (P : String → Prop) (eq : Equation) : Prop :=
  ∀ x ∈ eq.lhs.symbols ++ eq.rhs.symbols, P x

theorem Equation.AllSymbols.mono {P Q : String → Prop} {eq : Equation} (h : eq.AllSymbols P)
    (hPQ : ∀ x, P x → Q x) : eq.AllSymbols Q :=
  fun x hx => hPQ x (h x hx)

namespace Temporaries

section Definitions

variable {name : Nat → String}

theorem notMem_symbols_definitions (hname : Function.Injective name) {bs : List (Expr × Expr)}
    (hunnamed : ∀ b ∈ bs, ∀ i, name i ∉ b.1.symbols)
    (hnumbered : (bs.map (·.2)).reverse = (List.range bs.length).map fun i => Expr.sym (name i)) :
    ∀ t ∈ definitions bs, ∀ i, t.lhs = .sym (name i) → ∀ j, i ≤ j → name j ∉ t.rhs.symbols := by
  induction bs with
  | nil =>
    intro t ht
    cases ht
  | cons b bs ih =>
    rw [List.map_cons, List.reverse_cons, List.length_cons, List.range_succ,
      List.map_append] at hnumbered
    obtain ⟨hrest, hlast⟩ := List.append_inj' hnumbered rfl
    obtain ⟨hkey, hkeys⟩ := List.forall_mem_cons.1 hunnamed
    intro t ht i hi j hij hmem
    rcases List.mem_cons.1 ht with rfl | ht
    · have hin : i = bs.length := by
        apply hname
        apply Expr.sym.inj
        rw [← hi]
        exact List.singleton_inj.1 hlast
      rcases Expr.mem_symbols_replace hmem with hmem | ⟨a, v, -, hav, hmem⟩
      · exact hkey j hmem
      · have hv : v ∈ (bs.map (·.2)).reverse :=
          List.mem_reverse.2 (List.mem_map_of_mem (f := Prod.snd) (mem_of_lookup hav))
        rw [hrest] at hv
        obtain ⟨k, hk, rfl⟩ := List.mem_map.1 hv
        have := hname (List.mem_singleton.1 hmem)
        have := List.mem_range.1 hk
        omega
    · exact ih hkeys hrest t ht i hi j hij hmem

end Definitions

section Symbols

variable {P : String → Prop} {name : Nat → String}

theorem allSymbols_replaceIn {σ : Expr → Option Expr} {eq : Equation}
    (hσ : ∀ a b, σ a = some b → ∀ x ∈ b.symbols, P x) (h : eq.AllSymbols P) :
    (replaceIn σ eq).value.AllSymbols P := by
  have hside {e : Expr} (he : ∀ x ∈ e.symbols, P x) : ∀ x ∈ (e.replace σ).value.symbols, P x := by
    intro x hx
    rcases Expr.mem_symbols_replace hx with hx | ⟨a, b, -, hab, hx⟩
    · exact he x hx
    · exact hσ a b hab x hx
  unfold Equation.AllSymbols at h ⊢
  rw [List.forall_mem_append] at h ⊢
  exact ⟨hside h.1, hside h.2⟩

def OrFirst (P : String → Prop) (name : Nat → String) (n : Nat) (x : String) : Prop :=
  P x ∨ ∃ i < n, x = name i

theorem allSymbols_next {s : State}
    (h : ∀ eq ∈ s.equations, eq.AllSymbols (OrFirst P name s.temporaries.length)) :
    ∀ eq ∈ (s.next fun i => .sym (name i)).equations,
      eq.AllSymbols (OrFirst P name (s.next fun i => .sym (name i)).temporaries.length) := by
  rw [State.length_temporaries_next]
  have hold : ∀ eq ∈ s.equations,
      eq.AllSymbols (OrFirst P name (s.temporaries.length + s.targets.length)) := by
    intro eq heq
    refine (h eq heq).mono ?_
    rintro x (hx | ⟨i, hi, rfl⟩)
    · exact .inl hx
    · exact .inr ⟨i, by omega, rfl⟩
  have hnew {j : Nat} {o : Expr} (ho : s.targets[j]? = some o) :
      OrFirst P name (s.temporaries.length + s.targets.length)
        (name (s.temporaries.length + j)) := by
    have hj := (List.getElem?_eq_some_iff.1 ho).1
    exact .inr ⟨_, by omega, rfl⟩
  intro eq heq
  rcases State.mem_equations_names.1 heq with ⟨j, o, ho, rfl⟩ | ⟨eq', heq', rfl⟩
  · have hmem := State.mem_operations_of_mem_targets (List.mem_of_getElem? ho)
    obtain ⟨-, eq', heq', hwithin⟩ := State.exists_within_of_mem_operations hmem
    refine List.forall_mem_append.2 ⟨List.forall_mem_singleton.2 (hnew ho), fun x hx => ?_⟩
    exact hold eq' heq' x (List.mem_append_right _ (hwithin.mem_symbols hx))
  · apply allSymbols_replaceIn _ (hold eq' heq')
    intro a b hab x hx
    obtain ⟨j, hj, rfl⟩ := State.names_eq_some.1 hab
    rw [List.mem_singleton.1 hx]
    exact hnew hj

theorem allSymbols_eliminate (hname : Function.Injective name) {eqs : List Equation}
    (h : ∀ eq ∈ eqs, eq.AllSymbols P) :
    ∃ n, n ≤ ((eliminate (fun i => .sym (name i)) eqs).value.filter (·.isScalar)).length ∧
      ∀ eq ∈ (eliminate (fun i => .sym (name i)) eqs).value, eq.AllSymbols (OrFirst P name n) := by
  obtain ⟨s, hs, hnumbered, hsymbols⟩ : ∃ s : State,
      (eliminate (fun i => .sym (name i)) eqs).value = s.renumber.value ∧ s.Numbered name ∧
        ∀ eq ∈ s.equations, eq.AllSymbols (OrFirst P name s.temporaries.length) := by
    refine ⟨_, rfl, ?_⟩
    apply State.eliminate_induct (motive := fun s => s.Numbered name ∧
      ∀ eq ∈ s.equations, eq.AllSymbols (OrFirst P name s.temporaries.length))
    · rintro s - ⟨hnumbered, hsymbols⟩
      exact ⟨hnumbered.next, allSymbols_next hsymbols⟩
    · exact ⟨rfl, fun eq heq => (h eq heq).mono fun x hx => .inl hx⟩
  refine ⟨s.temporaries.length, ?_, ?_⟩
  · have hscalar : ∀ t ∈ s.renumbered.temporaries, t.isScalar = true := by
      intro t ht
      have hmem := List.mem_map_of_mem (f := Equation.lhs) ht
      rw [hnumbered.numbered_renumbered hname] at hmem
      obtain ⟨i, -, hi⟩ := List.mem_map.1 hmem
      exact Equation.isScalar_of_symbol hi.symm
    rw [hs, ← State.equations_renumbered, State.equations, List.filter_append, List.length_append,
      List.filter_eq_self.2 hscalar, State.renumbered, List.length_map]
    omega
  · rw [hs, State.renumber, Checked.value_mapM]
    intro eq heq
    obtain ⟨eq', heq', rfl⟩ := List.mem_map.1 heq
    apply allSymbols_replaceIn _ (hsymbols eq' heq')
    intro a b hab x hx
    obtain ⟨i, j, hij, -, rfl⟩ := (hnumbered.swaps_eq_some hname).1 hab
    exact .inr ⟨j, by omega, List.mem_singleton.1 hx⟩

theorem allSymbols_compact {temporaries leaves : List Equation}
    (h : ∀ eq ∈ temporaries ++ leaves, eq.AllSymbols P) :
    ∀ eq ∈ (compact temporaries leaves).value, eq.AllSymbols P := by
  intro eq heq
  obtain ⟨eq', heq', -, rfl⟩ := exists_of_mem_compact heq
  unfold Equation.AllSymbols
  rw [lhs_compacted, rhs_compacted, List.forall_mem_append]
  refine ⟨fun x hx => h eq' heq' x (List.mem_append_left _ hx), ?_⟩
  apply replaceFully_induct (motive := fun e => ∀ x ∈ e.symbols, P x)
  · intro e he x hx
    rcases Expr.mem_symbols_replace hx with hx | ⟨a, b, -, hab, hx⟩
    · exact he x hx
    · obtain ⟨d, hd, -, -, rfl⟩ := exists_of_removals hab
      exact h d hd x (List.mem_append_right _ hx)
  · exact fun x hx => h eq' heq' x (List.mem_append_right _ hx)

end Symbols

end Temporaries

namespace Optimization

def Mentions (c : Cluster) (i : Nat) : Prop :=
  ∃ eq ∈ c.equations, ∃ x ∈ eq.lhs.symbols ++ eq.rhs.symbols, .sym x = temporary i

theorem number_of_optimizeEquations (first : Nat) {eqs : List Equation}
    (h : ∀ eq ∈ eqs, eq.AllSymbols fun x => ∀ i, .sym x ≠ temporary i) :
    ∀ eq ∈ (optimizeEquations first eqs).value.1, eq.AllSymbols fun x => ∀ i, .sym x = temporary i →
      first ≤ i ∧ i < first + (optimizeEquations first eqs).value.2 := by
  have hname : Function.Injective fun i => s!"r{first + i}" :=
    fun i j hij => Nat.add_left_cancel (temporary_injective (congrArg Expr.sym hij))
  obtain ⟨n, hn, hsymbols⟩ := Temporaries.allSymbols_eliminate hname h
  unfold optimizeEquations
  simp only [Checked.value_bind, Checked.value_pure, List.partition_eq_filter_filter]
  apply Temporaries.allSymbols_compact
  intro eq heq
  have hmem : eq ∈ (Temporaries.eliminate (fun i => temporary (first + i)) eqs).value := by
    rcases List.mem_append.1 heq with heq | heq
    · exact List.mem_of_mem_filter heq
    · exact List.mem_of_mem_filter heq
  refine (hsymbols eq hmem).mono ?_
  rintro x (hx | ⟨k, hk, rfl⟩) i hi
  · exact absurd hi (hx i)
  · obtain rfl : first + k = i := temporary_injective hi
    exact ⟨Nat.le_add_right .., Nat.add_lt_add_left (Nat.lt_of_lt_of_le hk hn) first⟩

theorem mentions_optimizeFrom (first : Nat) {cs : List Cluster}
    (h : ∀ c ∈ cs, ∀ i, ¬ Mentions c i) :
    (∀ c ∈ (optimizeFrom first cs).value, ∀ i, Mentions c i → first ≤ i) ∧
      (optimizeFrom first cs).value.Pairwise
        fun c d => ∀ i j, Mentions c i → Mentions d j → i < j := by
  induction cs generalizing first with
  | nil => exact ⟨by simp [optimizeFrom], .nil⟩
  | cons c cs ih =>
    obtain ⟨hc, hcs⟩ := List.forall_mem_cons.1 h
    obtain ⟨hle, hpairwise⟩ := ih (first + (optimizeEquations first c.equations).value.2) hcs
    have hunnamed : ∀ eq ∈ c.equations, eq.AllSymbols fun x => ∀ i, .sym x ≠ temporary i :=
      fun eq heq x hx i hi => hc i ⟨eq, heq, x, hx, hi⟩
    have hnumber := number_of_optimizeEquations first hunnamed
    rw [optimizeFrom, Checked.value_bind]
    constructor
    · refine List.forall_mem_cons.2 ⟨?_, fun d hd i hi => ?_⟩
      · rintro i ⟨eq, heq, x, hx, hi⟩
        exact (hnumber eq heq x hx i hi).1
      · have := hle d hd i hi
        omega
    · refine .cons (fun d hd => ?_) hpairwise
      rintro i j ⟨eq, heq, x, hx, hi⟩ hj
      have := (hnumber eq heq x hx i hi).2
      have := hle d hd j hj
      omega

end Optimization

namespace Temporaries

open Optimization

/--
The elimination defines its temporaries first, in the order of their numbers, each one from earlier
ones. In a program the numbers grow from cluster to cluster, so that no two clusters share a
temporary.
-/
theorem temporaries_in_order :
    (∀ (name : Nat → String) (eqs : List Equation), Admissible name eqs →
      ∃ ts rest, (eliminate (fun i => .sym (name i)) eqs).value = ts ++ rest ∧
        rest.length = eqs.length ∧
        ts.map (·.lhs) = (List.range ts.length).map (fun i => Expr.sym (name i)) ∧
        ∀ t ∈ ts, ∀ i, t.lhs = .sym (name i) → ∀ j, i ≤ j → name j ∉ t.rhs.symbols) ∧
    ∀ cs : List Cluster, (∀ c ∈ cs, ∀ i, ¬ Mentions c i) →
      (optimize .basic cs).value.Pairwise fun c d =>
        ∀ i j, Mentions c i → Mentions d j → i < j := by
  constructor
  · intro name eqs h
    obtain ⟨bs, rest, hvalue, htakes, hnumbered, hprogram⟩ := h.exists_eliminate
    refine ⟨(definitions bs).reverse, rest, hvalue, hprogram.length_eq, ?_, fun t ht => ?_⟩
    · rw [List.map_reverse, map_lhs_definitions, hnumbered, List.length_reverse,
        length_definitions]
    · refine notMem_symbols_definitions h.injective (fun b hb => ?_) hnumbered t
        (List.mem_reverse.1 ht)
      exact h.unnamed_of_mem_operations (htakes.operation b hb)
  · intro cs hcs
    exact (mentions_optimizeFrom 0 hcs).2

def pair : List Cluster :=
  [nested, products].map fun eqs => ⟨eqs, .empty, .empty, .empty, .empty⟩

theorem temporaries_in_order_pair :
    (∃ ts rest, (eliminate (fun i => .sym s!"r{i}") nested).value = ts ++ rest ∧
      ts.map (·.lhs) = [.sym "r0", .sym "r1"] ∧
      ∀ t ∈ ts, t.lhs = .sym "r0" → "r1" ∉ t.rhs.symbols) ∧
    (optimize .basic pair).value.map (fun c => c.equations.map (·.lhs)) =
      [[.sym "r0", .sym "r1", element "u", element "z", element "y"],
        [.sym "r2", .sym "q", element "u", element "z"]] ∧
    (optimize .basic pair).value.Pairwise fun c d =>
      ∀ i j, Mentions c i → Mentions d j → i < j := by
  obtain ⟨hdefinitions, hclusters⟩ := temporaries_in_order
  refine ⟨?_, by decide +kernel, hclusters pair ?_⟩
  · have hlength : (eliminate (fun i => .sym s!"r{i}") nested).value.length = 5 := by
      decide +kernel
    obtain ⟨ts, rest, hvalue, hrest, hlhs, hearlier⟩ := hdefinitions _ nested admissible_nested
    have hthree : rest.length = 3 := hrest
    have htwo : ts.length = 2 := by
      rw [hvalue, List.length_append] at hlength
      omega
    refine ⟨ts, rest, hvalue, ?_, fun t ht hr => hearlier t ht 0 hr 1 (Nat.zero_le 1)⟩
    rw [hlhs, htwo]
    decide +kernel
  · intro c hc i hmentions
    obtain ⟨eqs, heqs, rfl⟩ := List.mem_map.1 hc
    obtain ⟨eq, heq, x, hx, hi⟩ := hmentions
    rcases List.mem_cons.1 heqs with rfl | heqs
    · exact admissible_nested.unnamed eq heq x hx i (Expr.sym.inj hi)
    · obtain rfl := List.mem_singleton.1 heqs
      exact separable_products.unnamed eq heq x hx i hi

end Temporaries

end Stencil
