import Stencil.Proofs.Temporaries.Compact

/-!
This module contains what is left of temporaries that are removed. Their values are put in for them
in other values, through chains of any length, but neither in index functions nor in left-hand
sides. There a temporary that is used in some value may stay behind without its equation.
-/

namespace Stencil

namespace Temporaries

variable {temporaries leaves : List Equation}

theorem exists_reference_of_mem_compact {eq : Equation}
    (heq : eq ∈ (compact temporaries leaves).value) {r : Reference} (hr : r ∈ eq.rhs.references) :
    ∃ eq' ∈ temporaries ++ leaves, r ∈ eq'.rhs.references := by
  obtain ⟨eq', heq', -, rfl⟩ := exists_of_mem_compact heq
  rw [rhs_compacted] at hr
  rcases mem_references_replaceFully r hr with hr | ⟨a, b, hab, hr⟩
  · exact ⟨eq', heq', hr⟩
  · obtain ⟨d, hd, -, -, rfl⟩ := exists_of_removals hab
    exact ⟨d, hd, hr⟩

theorem exists_leaf_of_mem_lhs (hscalar : ∀ t ∈ temporaries, t.isScalar = true) {s : String}
    (hremoved : ¬ Body.Assigned (compact temporaries leaves).value s) {eq : Equation}
    (heq : eq ∈ (compact temporaries leaves).value) (hmem : s ∈ eq.lhs.symbols) :
    ∃ l ∈ leaves, s ∈ l.lhs.symbols := by
  obtain ⟨eq', heq', -, rfl⟩ := exists_of_mem_compact heq
  rw [lhs_compacted] at hmem
  rcases List.mem_append.1 heq' with ht | hl
  · -- The left-hand side of a temporary is the scalar that it computes.
    obtain ⟨y, hy⟩ := Equation.exists_symbol_of_isScalar (hscalar eq' ht)
    rw [hy, Expr.symbols, List.mem_singleton] at hmem
    exact absurd ⟨_, heq, by rw [lhs_compacted, hy, hmem]⟩ hremoved
  · exact ⟨eq', hl, hmem⟩

/--
A temporary that is removed is mentioned by no value of what is left, outside of index functions. It
is still mentioned exactly if the left-hand side of a leaf mentions it, or an index function in a
value that is left. So nothing mentions it if neither left-hand sides nor index functions have done
so before.
-/
theorem compact_dangling_iff (temporaries leaves : List Equation)
    (hscalar : ∀ t ∈ temporaries, t.isScalar = true) (h : Body.Acyclic temporaries)
    (hleaves : ∀ l ∈ leaves, l.isScalar = false) (s : String) (hs : Body.Assigned temporaries s)
    (hremoved : ¬ Body.Assigned (compact temporaries leaves).value s) :
    (∀ eq ∈ (compact temporaries leaves).value, s ∉ eq.rhs.valueSymbols) ∧
    ((∃ eq ∈ (compact temporaries leaves).value, s ∈ eq.lhs.symbols ++ eq.rhs.symbols) ↔
      (∃ l ∈ leaves, s ∈ l.lhs.symbols) ∨
        ∃ eq ∈ (compact temporaries leaves).value, ∃ r ∈ eq.rhs.references,
          s ∈ Expr.symbolsOfList r.indices) ∧
    ((∀ l ∈ leaves, s ∉ l.lhs.symbols) →
      (∀ eq ∈ temporaries ++ leaves, ∀ r ∈ eq.rhs.references,
        s ∉ Expr.symbolsOfList r.indices) →
      ∀ eq ∈ (compact temporaries leaves).value, s ∉ eq.lhs.symbols ++ eq.rhs.symbols) := by
  have hvalue : ∀ eq ∈ (compact temporaries leaves).value, s ∉ eq.rhs.valueSymbols := by
    intro eq heq hmem
    obtain ⟨eq', -, -, rfl⟩ := exists_of_mem_compact heq
    obtain ⟨t, ht, hlhs⟩ := hs
    exact hremoved (assigned_of_mem_compacted (h.append hleaves) hmem
      ⟨t, List.mem_append_left _ ht, hlhs⟩)
  have hindex {eq : Equation} (heq : eq ∈ (compact temporaries leaves).value) :
      s ∈ eq.lhs.symbols ++ eq.rhs.symbols ↔ s ∈ eq.lhs.symbols ∨
        ∃ r ∈ eq.rhs.references, s ∈ Expr.symbolsOfList r.indices := by
    rw [List.mem_append, Expr.mem_symbols (e := eq.rhs), or_iff_right (hvalue eq heq)]
  refine ⟨hvalue, ⟨?_, ?_⟩, ?_⟩
  · rintro ⟨eq, heq, hmem⟩
    rcases (hindex heq).1 hmem with hmem | hmem
    · exact .inl (exists_leaf_of_mem_lhs hscalar hremoved heq hmem)
    · exact .inr ⟨eq, heq, hmem⟩
  · rintro (⟨l, hl, hmem⟩ | ⟨eq, heq, hmem⟩)
    · refine ⟨_, mem_compact (List.mem_append_right _ hl)
        (isRemoved_of_not_isScalar (hleaves l hl)), ?_⟩
      rw [lhs_compacted]
      exact List.mem_append_left _ hmem
    · exact ⟨eq, heq, (hindex heq).2 (.inr hmem)⟩
  · intro hlhs hrefs eq heq hmem
    rcases (hindex heq).1 hmem with hmem | ⟨r, hr, hmem⟩
    · obtain ⟨l, hl, hmem⟩ := exists_leaf_of_mem_lhs hscalar hremoved heq hmem
      exact hlhs l hl hmem
    · obtain ⟨eq', heq', hr'⟩ := exists_reference_of_mem_compact heq hr
      exact hrefs eq' heq' r hr' hmem

section Indirect

/-- `r0 = p[x]` and `r1 = r0 + 1`. -/
def offsetStages : List Equation :=
  let p : GridFunction := .declare "p" .dense [.space "x"] [.num 8]
  [⟨.sym "r0", .access p [.sym "x"], false⟩,
    ⟨.sym "r1", .add [.num 1, .sym "r0"], false⟩]

/-- `u[x] = r1 v[i]`. -/
def indirectLeaf (i : Expr) : Equation :=
  let u : GridFunction := .declare "u" .dense [.space "x"] [.num 8]
  let v : GridFunction := .declare "v" .dense [.space "x"] [.num 8]
  ⟨.access u [.sym "x"], .mul [.sym "r1", .access v [i]], false⟩

theorem isScalar_offsetStages : ∀ t ∈ offsetStages, t.isScalar = true := by decide

theorem acyclic_offsetStages : Body.Acyclic offsetStages := by
  constructor
  · simp [offsetStages]
  · simp [offsetStages, Expr.valueSymbols]
  · simp [offsetStages, Expr.valueSymbols, Expr.valueSymbolsOfList]

theorem assigned_offsetStages : Body.Assigned offsetStages "r0" := by
  simp [Body.Assigned, offsetStages]

theorem not_assigned_compact_offsetStages {i : Expr}
    (h : (compact offsetStages [indirectLeaf i]).value.map (·.lhs) =
      [.sym "r1", (indirectLeaf i).lhs]) :
    ¬ Body.Assigned (compact offsetStages [indirectLeaf i]).value "r0" := by
  rintro ⟨eq, heq, hlhs⟩
  have hmem := List.mem_map_of_mem (f := Equation.lhs) heq
  rw [h, hlhs] at hmem
  simp [indirectLeaf] at hmem

theorem compact_dangling_iff_direct :
    (∀ t ∈ offsetStages, t.isScalar = true) ∧ Body.Acyclic offsetStages ∧
      (indirectLeaf (.sym "x")).isScalar = false ∧ Body.Assigned offsetStages "r0" ∧
      ¬ Body.Assigned (compact offsetStages [indirectLeaf (.sym "x")]).value "r0" ∧
      ∀ eq ∈ (compact offsetStages [indirectLeaf (.sym "x")]).value,
        "r0" ∉ eq.lhs.symbols ++ eq.rhs.symbols := by
  have hremoved : ¬ Body.Assigned (compact offsetStages [indirectLeaf (.sym "x")]).value "r0" :=
    not_assigned_compact_offsetStages (by decide +kernel)
  refine ⟨isScalar_offsetStages, acyclic_offsetStages, rfl, assigned_offsetStages, hremoved, ?_⟩
  apply (compact_dangling_iff offsetStages [indirectLeaf (.sym "x")] isScalar_offsetStages
    acyclic_offsetStages (by decide) "r0" assigned_offsetStages hremoved).2.2
  · decide +kernel
  · decide +kernel

/-- The value of `r0` is put in for it in `r1`, but `v[r0]` is left behind. -/
theorem compact_leaves_dangling :
    (∀ t ∈ offsetStages, t.isScalar = true) ∧ Body.Acyclic offsetStages ∧
      (indirectLeaf (.sym "r0")).isScalar = false ∧ Body.Assigned offsetStages "r0" ∧
      ¬ Body.Assigned (compact offsetStages [indirectLeaf (.sym "r0")]).value "r0" ∧
      ∃ eq ∈ (compact offsetStages [indirectLeaf (.sym "r0")]).value,
        "r0" ∈ eq.lhs.symbols ++ eq.rhs.symbols := by
  refine ⟨isScalar_offsetStages, acyclic_offsetStages, rfl, assigned_offsetStages, ?_, ?_⟩
  · exact not_assigned_compact_offsetStages (by decide +kernel)
  · decide +kernel

end Indirect

end Temporaries

end Stencil
