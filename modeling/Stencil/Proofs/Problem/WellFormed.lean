import Stencil.Proofs.Problem
import Stencil.Proofs.SymbolTable

/-!
This module contains the fact that a problem that has been loaded is well-formed. Every declaration
is resolved with the table of the declarations before it, so it refers to nothing else, and the
table is well-formed after each of them. The equations are resolved with the table at the end.
-/

namespace Stencil

structure Problem.WellFormed (p : Problem) : Prop where
  table : p.table.WellFormed
  references : ∀ eq ∈ p.equations, eq.AllReferences p.table.Resolves
  assignable : ∀ eq ∈ p.equations, (∃ f is, eq.lhs = .access f is) ∨ ∃ s, eq.lhs = .sym s
  directions : ∀ d ∈ p.directions.keys, p.table.Declares d

theorem SymbolTable.closedOver_resolves {t : SymbolTable} :
    Expr.ClosedOver (fun f => t.function? f.name = some f) fun e =>
      ∀ r ∈ e.references, t.Resolves r :=
  Expr.closedOver_references fun _ _ hf hlength => ⟨hf, hlength⟩

theorem SymbolTable.eq_of_map_eq_ok {α : Type} (declared : Except LoadError α × SymbolTable)
    {u : SymbolTable} (h : declared.1.map (fun _ => declared.2) = .ok u) : u = declared.2 := by
  obtain ⟨_ | _, t⟩ := declared
  · cases h
  · exact (Except.ok.inj h).symm

section Resolve

variable {t : SymbolTable} (ht : t.WellFormed)
include ht

theorem SymbolTable.WellFormed.function?_name {name : String} {f : GridFunction}
    (h : t.function? name = some f) : t.function? f.name = some f := by
  rw [(ht.function name f h).1]
  exact h

theorem Formula.resolves_toExpr (a : Formula) {e : Expr} (h : (toExpr t a).run.value = .ok e) :
    ∀ r ∈ e.references, t.Resolves r :=
  of_toExpr_over (fun _ _ => ht.function?_name) SymbolTable.closedOver_resolves a h

theorem Formula.resolves_toExprs (as : List Formula) {es : List Expr}
    (h : (toExprs t as).run.value = .ok es) : ∀ e ∈ es, ∀ r ∈ e.references, t.Resolves r :=
  (of_toExprs_over (fun _ _ => ht.function?_name) SymbolTable.closedOver_resolves as h).2

theorem SymbolTable.WellFormed.declares_of_mapM {names : List String} {ds : List Dimension}
    (h : names.mapM t.dimension = .ok ds) : ∀ d ∈ ds, t.Declares d := by
  intro d hd
  obtain ⟨name, -, hname⟩ := exists_mem_left (Analysis.mapM_eq_ok.1 h) hd
  exact ht.declares hname

theorem DimensionEntry.declares_resolveParent {e : DimensionEntry} {p : Dimension}
    (h : e.resolveParent t = .ok p) : t.Declares p := by
  unfold resolveParent at h
  split at h
  · exact ht.declares h
  · cases h

theorem DimensionEntry.wellFormed_resolve {e : DimensionEntry} {d : Dimension}
    (h : e.resolve t = .ok d) : d.WellFormed t := by
  have hroot {d : Dimension} (hparent : d.parent? = none) : d.WellFormed t := by
    constructor
    · intro p hp
      rw [hparent] at hp
      cases hp
    · rintro name p c rfl
      cases hparent
  unfold resolve at h
  split at h
  · obtain rfl := Except.ok.inj h
    exact hroot rfl
  · obtain rfl := Except.ok.inj h
    exact hroot rfl
  · obtain rfl := Except.ok.inj h
    exact hroot rfl
  · rw [Analysis.bind_eq_ok] at h
    obtain ⟨p, hp, h⟩ := h
    obtain rfl := Except.ok.inj h
    constructor
    · intro p' hp'
      obtain rfl := Option.some.inj hp'
      exact declares_resolveParent ht hp
    · intro name p' c hd
      cases hd
  · split at h
    · cases h
    · split at h
      · next hfactor =>
        rw [Analysis.bind_eq_ok] at h
        obtain ⟨p, hp, h⟩ := h
        obtain rfl := Except.ok.inj h
        constructor
        · intro p' hp'
          obtain rfl := Option.some.inj hp'
          exact declares_resolveParent ht hp
        · intro name p' c hd
          obtain ⟨-, -, rfl⟩ := Dimension.conditional.inj hd
          exact hfactor
      · cases h

theorem FunctionEntry.of_resolve {e : FunctionEntry} {grid : Option Grid} {f : GridFunction}
    (h : (e.resolve t grid).run.value = .ok f) :
    (∀ d ∈ f.dimensions, t.Declares d) ∧ ∀ x ∈ f.shape, ∀ r ∈ x.references, t.Resolves r := by
  unfold resolve at h
  rw [Analysis.value_bind_eq_ok] at h
  obtain ⟨dimensions, hdimensions, h⟩ := h
  rw [Analysis.value_bind_eq_ok] at h
  obtain ⟨shape, hshape, h⟩ := h
  obtain rfl := Except.ok.inj h
  exact ⟨ht.declares_of_mapM hdimensions, Formula.resolves_toExprs ht e.shape hshape⟩

theorem ProblemFile.wellFormed_declareDimensions {u : SymbolTable} {es : List DimensionEntry}
    (h : declareDimensions t es = .ok u) : u.WellFormed := by
  apply Analysis.of_foldlM_eq_ok _ ht h
  intro e _ t u ht h
  rw [Analysis.bind_eq_ok] at h
  obtain ⟨d, hd, h⟩ := h
  obtain rfl := SymbolTable.eq_of_map_eq_ok (t.declareDimension d) h
  exact ht.declareDimension (DimensionEntry.wellFormed_resolve ht hd)

theorem ProblemFile.wellFormed_declareFunctions {u : SymbolTable} {grid : Option Grid}
    {es : List FunctionEntry} (h : (declareFunctions grid t es).run.value = .ok u) :
    u.WellFormed := by
  unfold declareFunctions at h
  rw [Analysis.value_foldlM] at h
  apply Analysis.of_foldlM_eq_ok _ ht h
  intro e _ t u ht h
  rw [Analysis.value_bind_eq_ok] at h
  obtain ⟨f, hf, h⟩ := h
  obtain rfl := SymbolTable.eq_of_map_eq_ok (t.declareFunction f) h
  obtain ⟨hdimensions, hextents⟩ := FunctionEntry.of_resolve ht hf
  exact ht.declareFunction hdimensions hextents

end Resolve

/-- Loading gives well-formed problems only. -/
theorem ProblemFile.wellFormed_of_resolve (file : ProblemFile) (p : Problem)
    (h : file.resolve.run.value = .ok p) : p.WellFormed := by
  obtain ⟨t, hdimensions, hfunctions, hequations, ds, hds, hdirections⟩ := ProblemFile.of_resolve h
  have ht := wellFormed_declareDimensions SymbolTable.wellFormed_empty hdimensions
  have htable := wellFormed_declareFunctions ht hfunctions
  refine ⟨htable, fun eq heq => ?_, fun eq heq => ?_, fun d hd => ?_⟩
  · obtain ⟨entry, -, hentry⟩ := exists_mem_left hequations heq
    obtain ⟨hlhs, hrhs, -⟩ := EquationEntry.of_resolve hentry
    exact List.forall_mem_append.2
      ⟨Formula.resolves_toExpr htable _ hlhs, Formula.resolves_toExpr htable _ hrhs⟩
  · obtain ⟨entry, -, hentry⟩ := exists_mem_left hequations heq
    exact (EquationEntry.of_resolve hentry).2.2
  · rw [hdirections, OrdMap.mem_keys] at hd
    obtain ⟨direction, hdirection⟩ := hd
    obtain ⟨e, -, he, -⟩ := exists_mem_left hds (OrdMap.mem_of_find?_ofList hdirection)
    exact htable.declares he

/--
A file in which a stepping and a conditional dimension have parents, an extent is an array element,
and an index is one.
-/
def nestedFile : ProblemFile where
  name := none
  dimensions := [⟨"time", .time, none, none⟩, ⟨"x", .space, none, none⟩,
    ⟨"t", .stepping, some "time", none⟩, ⟨"c", .conditional, some "time", some 4⟩,
    ⟨"x", .space, none, none⟩]
  grid := none
  functions := [⟨"n", .dense, ["x"], [.int 8], none, none, none, .float32, false, none⟩,
    ⟨"u", .dense, ["t", "x"], [.int 2, .access "n" [.int 0]], some [(0, 0), (2, 1)], none, some 2,
      .float32, false, none⟩]
  directions := .ofList [("x", .backward)]
  equations := [⟨.access "u" [.add [.name "t", .int 1], .access "n" [.name "x"]],
    .call "exp" [.mul [.int 2, .access "u" [.name "t", .name "x"]]], false⟩,
    ⟨.name "s", .access "u" [.name "t", .access "n" [.access "n" [.name "x"]]], true⟩]

theorem ProblemFile.wellFormed_of_resolve_nested :
    ∃ p, nestedFile.resolve.run.value = .ok p ∧ p.equations.length = 2 ∧
      (p.table.dimensions.size, p.table.functions.size, p.directions.size) = (4, 2, 1) ∧
      p.WellFormed := by
  have hresult : nestedFile.resolve.run.value.toOption.map (fun p => (p.equations.length,
      p.table.dimensions.size, p.table.functions.size, p.directions.size)) = some (2, 4, 2, 1) := by
    decide +kernel
  cases hp : nestedFile.resolve.run.value with
  | error e =>
    rw [hp] at hresult
    cases hresult
  | ok p =>
    rw [hp] at hresult
    obtain ⟨hequations, hsizes⟩ := Prod.mk.inj (Option.some.inj hresult)
    exact ⟨p, rfl, hequations, hsizes, wellFormed_of_resolve nestedFile p hp⟩

end Stencil
