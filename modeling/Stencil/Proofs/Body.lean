import Stencil.Equation
import Stencil.Proofs.Expr.References

/-!
This module contains the execution of the body of a cluster at one point of the iteration. Scalars
are part of the memory here: the point gives those of the dimensions their values, and equations
compute others. If every scalar is computed once and before it is used, the scalars can be taken to
have their values from the start.
-/

namespace Stencil

structure Calls (K : Type) where
  apply : String → List K → K
  pole : Int → K

structure Memory (K : Type) where
  array : GridFunction × List K → K
  scalar : String → K

variable {K : Type} [Field K] [DecidableEq K] (calls : Calls K)

namespace Memory

def interpretation (m : Memory K) : Interpretation K where
  element f _ vs := m.array (f, vs)
  call s _ vs := calls.apply s vs
  pole := calls.pole

def value (m : Memory K) (e : Expr) : K := e.denote (m.interpretation calls) m.scalar

def cell (m : Memory K) (r : Reference) : GridFunction × List K :=
  (r.function, r.indices.map (m.value calls))

variable {m m' : Memory K}

theorem value_congr {e : Expr} (hscalar : ∀ s ∈ e.symbols, m.scalar s = m'.scalar s)
    (harray : ∀ r ∈ e.references, m.array (m.cell calls r) = m'.array (m.cell calls r)) :
    m.value calls e = m'.value calls e := by
  apply Expr.denote_congr (I := m.interpretation calls) (J := m'.interpretation calls) rfl rfl
  · exact hscalar
  · exact harray

theorem cell_congr {r : Reference}
    (hscalar : ∀ s ∈ Expr.symbolsOfList r.indices, m.scalar s = m'.scalar s)
    (harray : ∀ r' ∈ Expr.referencesOfList r.indices,
      m.array (m.cell calls r') = m'.array (m.cell calls r')) :
    m.cell calls r = m'.cell calls r := by
  unfold cell
  congr 1
  apply List.map_congr_left
  intro i hi
  apply value_congr
  · exact fun s hs => hscalar s (Expr.mem_symbolsOfList.2 ⟨i, hi, hs⟩)
  · exact fun r' hr' => harray r' (Expr.mem_referencesOfList.2 ⟨i, hi, hr'⟩)

end Memory

namespace Equation

def usedSymbols (eq : Equation) : List String :=
  eq.rhs.symbols ++
    match eq.write? with
    | some w => Expr.symbolsOfList w.indices
    | none => []

theorem mem_usedSymbols {eq : Equation} {x : String} (hx : x ∈ eq.usedSymbols) :
    x ∈ eq.rhs.valueSymbols ∨
      ∃ r ∈ eq.lhs.references ++ eq.rhs.references, x ∈ Expr.symbolsOfList r.indices := by
  rcases List.mem_append.1 hx with hx | hx
  · rcases Expr.mem_symbols.1 hx with hx | ⟨r, hr, hx⟩
    · exact .inl hx
    · exact .inr ⟨r, List.mem_append_right _ hr, hx⟩
  · unfold write? at hx
    cases hlhs : eq.lhs with
    | access f is =>
      rw [hlhs] at hx
      exact .inr ⟨⟨f, is⟩, List.mem_append_left _ (List.mem_cons_self ..), hx⟩
    | _ => simp [hlhs, Expr.toReference?] at hx

def outcome (m : Memory K) (eq : Equation) (old : K) : K :=
  if eq.isIncrement then old + m.value calls eq.rhs else m.value calls eq.rhs

def perform (m : Memory K) (eq : Equation) : Memory K :=
  match eq.lhs with
  | .sym s => { m with scalar := Function.update m.scalar s (eq.outcome calls m (m.scalar s)) }
  | .access f is =>
    let c := m.cell calls ⟨f, is⟩
    { m with array := Function.update m.array c (eq.outcome calls m (m.array c)) }
  | _ => m

/-- The scalar that an equation computes, if it computes one, has the value of the equation. -/
def Holds (base : Memory K) (eq : Equation) : Prop :=
  ∀ s, eq.lhs = .sym s → base.scalar s = base.value calls eq.rhs

theorem write?_eq_some {eq : Equation} {w : Reference} :
    eq.write? = some w ↔ eq.lhs = .access w.function w.indices := by
  unfold write?
  cases eq.lhs with
  | access f is =>
    obtain ⟨g, js⟩ := w
    simp [Expr.toReference?]
  | _ => simp [Expr.toReference?]

theorem exists_write_of_isTensor {eq : Equation} (h : eq.isTensor = true) :
    ∃ w, eq.write? = some w :=
  Option.isSome_iff_exists.1 h

theorem exists_symbol_of_isScalar {eq : Equation} (h : eq.isScalar = true) :
    ∃ s, eq.lhs = .sym s := by
  unfold isScalar at h
  cases hlhs : eq.lhs <;> simp_all [Expr.toSymbol?]

theorem isScalar_of_symbol {eq : Equation} {s : String} (h : eq.lhs = .sym s) :
    eq.isScalar = true := by
  rw [isScalar, h]
  rfl

variable {calls} {m base : Memory K} {eq : Equation}

theorem perform_of_symbol {s : String} (h : eq.lhs = .sym s) (hplain : eq.isIncrement = false) :
    eq.perform calls m =
      { m with scalar := Function.update m.scalar s (m.value calls eq.rhs) } := by
  unfold perform outcome
  rw [h, hplain]
  rfl

theorem array_perform_of_isScalar (h : eq.isScalar = true) :
    (eq.perform calls m).array = m.array := by
  obtain ⟨s, hs⟩ := exists_symbol_of_isScalar h
  unfold perform
  rw [hs]

theorem perform_of_isTensor (h : eq.isTensor = true) :
    eq.perform calls m = { m with array := (eq.perform calls m).array } := by
  obtain ⟨w, hw⟩ := exists_write_of_isTensor h
  unfold perform
  rw [write?_eq_some.1 hw]

theorem array_perform_congr {eq' : Equation} {m' : Memory K} (htensor : eq.isTensor = true)
    (hlhs : eq'.lhs = eq.lhs) (hincrement : eq'.isIncrement = eq.isIncrement)
    (harray : m'.array = m.array)
    (hvalue : m'.value calls eq'.rhs = m.value calls eq.rhs)
    (hcell : ∀ w, eq.write? = some w → m'.cell calls w = m.cell calls w) :
    (eq'.perform calls m').array = (eq.perform calls m).array := by
  obtain ⟨w, hw⟩ := exists_write_of_isTensor htensor
  have hcell := hcell w hw
  unfold perform outcome
  rw [hlhs, write?_eq_some.1 hw]
  simp only [hcell, hvalue, hincrement, harray]

end Equation

namespace Body

def run (m : Memory K) (eqs : List Equation) : Memory K := eqs.foldl (Equation.perform calls) m

def Assigned (eqs : List Equation) (x : String) : Prop := ∃ eq ∈ eqs, eq.lhs = .sym x

theorem assigned_cons {eq : Equation} {eqs : List Equation} {x : String} :
    Assigned (eq :: eqs) x ↔ eq.lhs = .sym x ∨ Assigned eqs x := by
  simp [Assigned]

/-- Each scalar is computed once, and from the values neither of itself nor of later ones. -/
structure Acyclic (eqs : List Equation) : Prop where
  once : eqs.Pairwise fun e e' => ∀ x, e'.lhs = .sym x → e.lhs ≠ .sym x
  before : eqs.Pairwise fun e e' => ∀ x, e'.lhs = .sym x → x ∉ e.rhs.valueSymbols
  own : ∀ eq ∈ eqs, ∀ x, eq.lhs = .sym x → x ∉ eq.rhs.valueSymbols

namespace Acyclic

variable {eqs : List Equation}

theorem sublist {eqs' : List Equation} (h : Acyclic eqs) (hsub : eqs'.Sublist eqs) :
    Acyclic eqs' where
  once := h.once.sublist hsub
  before := h.before.sublist hsub
  own eq heq := h.own eq (hsub.subset heq)

theorem append {eqs' : List Equation} (h : Acyclic eqs)
    (heqs' : ∀ eq ∈ eqs', eq.isScalar = false) : Acyclic (eqs ++ eqs') := by
  have hnot {eq : Equation} (heq : eq ∈ eqs') (x : String) : eq.lhs ≠ .sym x := by
    intro hx
    have hscalar := heqs' eq heq
    simp [Equation.isScalar_of_symbol hx] at hscalar
  constructor
  · refine List.pairwise_append.2 ⟨h.once, ?_, ?_⟩
    · exact List.pairwise_of_forall_mem_list fun e _ e' he' x hx => absurd hx (hnot he' x)
    · exact fun e _ e' he' x hx => absurd hx (hnot he' x)
  · refine List.pairwise_append.2 ⟨h.before, ?_, ?_⟩
    · exact List.pairwise_of_forall_mem_list fun e _ e' he' x hx => absurd hx (hnot he' x)
    · exact fun e _ e' he' x hx => absurd hx (hnot he' x)
  · exact List.forall_mem_append.2 ⟨h.own, fun eq heq x hx => absurd hx (hnot heq x)⟩

theorem exists_rank (h : Acyclic eqs) :
    ∃ rank : String → Nat, ∀ eq ∈ eqs, ∀ x, eq.lhs = .sym x → rank x < eqs.length ∧
      ∀ y ∈ eq.rhs.valueSymbols, Assigned eqs y → rank y < rank x := by
  induction eqs with
  | nil => exact ⟨fun _ => 0, by simp⟩
  | cons eq eqs ih =>
    obtain ⟨rank, hrank⟩ := ih (h.sublist (List.sublist_cons_self ..))
    refine ⟨fun x => if eq.lhs = .sym x then 0 else rank x + 1, ?_⟩
    rw [List.forall_mem_cons]
    constructor
    · intro x hx
      refine ⟨by simp [hx], fun y hy hassigned => ?_⟩
      rcases assigned_cons.1 hassigned with hlhs | ⟨e, he, hlhs⟩
      · exact absurd hy (h.own eq (List.mem_cons_self ..) y hlhs)
      · exact absurd hy ((List.pairwise_cons.1 h.before).1 e he y hlhs)
    · intro e he x hx
      have hne : eq.lhs ≠ .sym x := (List.pairwise_cons.1 h.once).1 e he x hx
      obtain ⟨hlt, hused⟩ := hrank e he x hx
      simp only [hne, if_false, List.length_cons]
      refine ⟨by omega, fun y hy hassigned => ?_⟩
      split
      · omega
      · next hne =>
        have := hused y hy ((assigned_cons.1 hassigned).resolve_left hne)
        omega

end Acyclic

/-- Equations write array elements, or compute scalars: each scalar once, and before it is used. -/
structure Ordered (eqs : List Equation) : Prop where
  writes : ∀ eq ∈ eqs, eq.isTensor = true ∨ eq.isScalar = true ∧ eq.isIncrement = false
  once : eqs.Pairwise fun e e' => ∀ x, e'.lhs = .sym x → e.lhs ≠ .sym x
  before : eqs.Pairwise fun e e' => ∀ x, e'.lhs = .sym x → x ∉ e.usedSymbols
  own : ∀ eq ∈ eqs, ∀ x, eq.lhs = .sym x → x ∉ eq.usedSymbols

namespace Ordered

variable {eq : Equation} {eqs : List Equation}

theorem tail (h : Ordered (eq :: eqs)) : Ordered eqs where
  writes := (List.forall_mem_cons.1 h.writes).2
  once := (List.pairwise_cons.1 h.once).2
  before := (List.pairwise_cons.1 h.before).2
  own := (List.forall_mem_cons.1 h.own).2

theorem sublist {eqs' : List Equation} (h : Ordered eqs) (hsub : eqs'.Sublist eqs) :
    Ordered eqs' where
  writes eq heq := h.writes eq (hsub.subset heq)
  once := h.once.sublist hsub
  before := h.before.sublist hsub
  own eq heq := h.own eq (hsub.subset heq)

theorem not_assigned_of_used (h : Ordered (eq :: eqs)) {x : String} (hx : x ∈ eq.usedSymbols) :
    ¬ Assigned (eq :: eqs) x := by
  rw [assigned_cons]
  rintro (hlhs | ⟨e, he, hlhs⟩)
  · exact h.own eq (List.mem_cons_self ..) x hlhs hx
  · exact (List.pairwise_cons.1 h.before).1 e he x hlhs hx

theorem partition (h : Ordered eqs) :
    Ordered (eqs.filter (·.isScalar) ++ eqs.filter fun eq => !eq.isScalar) := by
  have hscalars := h.sublist (List.filter_sublist (p := fun eq => eq.isScalar))
  have hothers := h.sublist (List.filter_sublist (p := fun eq => !eq.isScalar))
  have hnot : ∀ eq ∈ eqs.filter fun eq => !eq.isScalar, ∀ x, eq.lhs ≠ .sym x := by
    intro eq heq x hx
    have hscalar := (List.mem_filter.1 heq).2
    simp [Equation.isScalar_of_symbol hx] at hscalar
  constructor
  · exact List.forall_mem_append.2 ⟨hscalars.writes, hothers.writes⟩
  · refine List.pairwise_append.2 ⟨hscalars.once, hothers.once, ?_⟩
    exact fun e _ e' he' x hx => absurd hx (hnot e' he' x)
  · refine List.pairwise_append.2 ⟨hscalars.before, hothers.before, ?_⟩
    exact fun e _ e' he' x hx => absurd hx (hnot e' he' x)
  · exact List.forall_mem_append.2 ⟨hscalars.own, hothers.own⟩

theorem acyclic (h : Ordered eqs) : Acyclic eqs where
  once := h.once
  before := h.before.imp fun hused x hx hmem =>
    hused x hx (List.mem_append_left _ (Expr.mem_symbols.2 (.inl hmem)))
  own eq heq x hx hmem :=
    h.own eq heq x hx (List.mem_append_left _ (Expr.mem_symbols.2 (.inl hmem)))

end Ordered

/-- What equations do to the arrays if scalars keep the values `scalar`. -/
def sweep (scalar : String → K) (array : GridFunction × List K → K) (eqs : List Equation) :
    GridFunction × List K → K :=
  eqs.foldl (fun array eq => (eq.perform calls ⟨array, scalar⟩).array) array

theorem run_array {eqs : List Equation} (h : Ordered eqs) {m : Memory K} {scalar : String → K}
    (hscalar : ∀ eq ∈ eqs, ∀ x ∈ eq.usedSymbols, ¬ Assigned eqs x → scalar x = m.scalar x)
    (hholds : ∀ before eq after, eqs = before ++ eq :: after →
      eq.Holds calls ⟨(run calls m before).array, scalar⟩) :
    (run calls m eqs).array = sweep calls scalar m.array eqs := by
  induction eqs generalizing m with
  | nil => rfl
  | cons eq eqs ih =>
    have hself : eq ∈ eq :: eqs := List.mem_cons_self ..
    have hlater {e : Equation} (he : e ∈ eqs) : e ∈ eq :: eqs := List.mem_cons_of_mem _ he
    have hused : ∀ x ∈ eq.usedSymbols, scalar x = m.scalar x := fun x hx =>
      hscalar eq hself x hx (h.not_assigned_of_used hx)
    unfold Equation.usedSymbols at hused
    rw [List.forall_mem_append] at hused
    have hvalue : Memory.value calls ⟨m.array, scalar⟩ eq.rhs = m.value calls eq.rhs :=
      Memory.value_congr calls hused.1 fun _ _ => rfl
    have hrest : ∀ before e after, eqs = before ++ e :: after →
        e.Holds calls ⟨(run calls (eq.perform calls m) before).array, scalar⟩ :=
      fun before e after hsplit => hholds (eq :: before) e after (congrArg _ hsplit)
    rw [run, List.foldl_cons, sweep, List.foldl_cons]
    rcases h.writes eq hself with htensor | ⟨hisScalar, hplain⟩
    · have harray : (eq.perform calls ⟨m.array, scalar⟩).array = (eq.perform calls m).array := by
        refine Equation.array_perform_congr htensor rfl rfl ?_ hvalue fun w hw => ?_
        · rfl
        · rw [hw] at hused
          exact Memory.cell_congr calls hused.2 fun _ _ => rfl
      rw [harray]
      apply ih h.tail _ hrest
      rw [Equation.perform_of_isTensor htensor]
      intro e he x hx hnot
      obtain ⟨w, hw⟩ := Equation.exists_write_of_isTensor htensor
      apply hscalar e (hlater he) x hx
      rw [assigned_cons, Equation.write?_eq_some.1 hw]
      simpa using hnot
    · obtain ⟨y, hy⟩ := Equation.exists_symbol_of_isScalar hisScalar
      have harray : (eq.perform calls ⟨m.array, scalar⟩).array = (eq.perform calls m).array := by
        rw [Equation.array_perform_of_isScalar hisScalar,
          Equation.array_perform_of_isScalar hisScalar]
      rw [harray]
      apply ih h.tail _ hrest
      rw [Equation.perform_of_symbol hy hplain]
      intro e he x hx hnot
      dsimp only
      by_cases hxy : x = y
      · rw [hxy, Function.update_self, ← hvalue]
        exact hholds [] eq eqs rfl y hy
      · rw [Function.update_of_ne hxy]
        apply hscalar e (hlater he) x hx
        rw [assigned_cons, hy]
        rintro (hyx | hassigned)
        · exact hxy (Expr.sym.inj hyx).symm
        · exact hnot hassigned

theorem run_array_of_scalars {eqs : List Equation} (h : ∀ eq ∈ eqs, eq.isScalar = true)
    (m : Memory K) : (run calls m eqs).array = m.array := by
  induction eqs generalizing m with
  | nil => rfl
  | cons eq eqs ih =>
    rw [List.forall_mem_cons] at h
    rw [run, List.foldl_cons]
    exact (ih h.2 _).trans (Equation.array_perform_of_isScalar h.1)

theorem run_array_of_unwritten {eqs : List Equation} {c : GridFunction × List K}
    (h : ∀ eq ∈ eqs, ∀ w, eq.write? = some w → w.function ≠ c.1) (m : Memory K) :
    (run calls m eqs).array c = m.array c := by
  induction eqs generalizing m with
  | nil => rfl
  | cons eq eqs ih =>
    rw [List.forall_mem_cons] at h
    rw [run, List.foldl_cons]
    apply (ih h.2 _).trans
    unfold Equation.perform
    split
    · rfl
    · next f is hlhs =>
      have hne : f ≠ c.1 := h.1 ⟨f, is⟩ (Equation.write?_eq_some.2 hlhs)
      exact Function.update_of_ne (fun hc => hne (congrArg Prod.fst hc).symm) ..
    · rfl

theorem sweep_filter (scalar : String → K) (array : GridFunction × List K → K)
    (eqs : List Equation) :
    sweep calls scalar array (eqs.filter fun eq => !eq.isScalar) =
      sweep calls scalar array eqs := by
  induction eqs generalizing array with
  | nil => rfl
  | cons eq eqs ih =>
    rw [List.filter_cons]
    cases hscalar : eq.isScalar with
    | true =>
      have harray : (eq.perform calls ⟨array, scalar⟩).array = array :=
        Equation.array_perform_of_isScalar hscalar
      rw [sweep, sweep, List.foldl_cons, harray]
      exact ih array
    | false =>
      rw [sweep, sweep]
      exact ih _

theorem sweep_eq_of_forall₂ {scalar : String → K} {R : Equation → Equation → Prop}
    {eqs' eqs : List Equation} (hR : List.Forall₂ R eqs' eqs) {array : GridFunction × List K → K}
    (hstep : ∀ before eq after, eqs = before ++ eq :: after → ∀ eq', R eq' eq →
      (eq'.perform calls ⟨sweep calls scalar array before, scalar⟩).array =
        (eq.perform calls ⟨sweep calls scalar array before, scalar⟩).array) :
    sweep calls scalar array eqs' = sweep calls scalar array eqs := by
  induction hR generalizing array with
  | nil => rfl
  | @cons eq' eq eqs' eqs hhead _ ih =>
    have harray := hstep [] eq eqs rfl eq' hhead
    rw [sweep, sweep, List.foldl_cons, List.foldl_cons]
    rw [sweep, List.foldl_nil] at harray
    rw [harray]
    apply ih
    exact fun before e after hsplit => hstep (eq :: before) e after (congrArg _ hsplit)

/-- A memory like `m`, but with the values of the scalars that equations compute. -/
structure Solves (m : Memory K) (eqs : List Equation) (base : Memory K) : Prop where
  array : base.array = m.array
  scalar : ∀ x, ¬ Assigned eqs x → base.scalar x = m.scalar x
  holds : ∀ eq ∈ eqs, eq.Holds calls base

theorem exists_solves {eqs : List Equation} (h : Ordered eqs) (m : Memory K) :
    ∃ base, Solves calls m eqs base := by
  induction eqs generalizing m with
  | nil => exact ⟨m, rfl, fun _ _ => rfl, by simp⟩
  | cons eq eqs ih =>
    have hself : eq ∈ eq :: eqs := List.mem_cons_self ..
    rcases h.writes eq hself with htensor | ⟨hscalar, -⟩
    · obtain ⟨base, harray, hrest, hholds⟩ := ih h.tail m
      obtain ⟨w, hw⟩ := Equation.exists_write_of_isTensor htensor
      refine ⟨base, harray, fun x hx => ?_, List.forall_mem_cons.2 ⟨fun x hx => ?_, hholds⟩⟩
      · rw [assigned_cons, not_or] at hx
        exact hrest x hx.2
      · rw [Equation.write?_eq_some.1 hw] at hx
        cases hx
    · obtain ⟨y, hy⟩ := Equation.exists_symbol_of_isScalar hscalar
      obtain ⟨base, harray, hrest, hholds⟩ := ih h.tail
        { m with scalar := Function.update m.scalar y (m.value calls eq.rhs) }
      have honce : ¬ Assigned eqs y :=
        fun ⟨e, he, hlhs⟩ => (List.pairwise_cons.1 h.once).1 e he y hlhs hy
      have hvalue : base.value calls eq.rhs = m.value calls eq.rhs := by
        apply Memory.value_congr
        · intro x hx
          have hnot := h.not_assigned_of_used (List.mem_append_left _ hx)
          rw [assigned_cons, not_or, hy] at hnot
          rw [hrest x hnot.2]
          exact Function.update_of_ne (fun hxy => hnot.1 (congrArg Expr.sym hxy.symm)) ..
        · simp [harray]
      refine ⟨base, harray, fun x hx => ?_, List.forall_mem_cons.2 ⟨fun x hx => ?_, hholds⟩⟩
      · rw [assigned_cons, not_or, hy] at hx
        rw [hrest x hx.2]
        exact Function.update_of_ne (fun hxy => hx.1 (congrArg Expr.sym hxy.symm)) ..
      · obtain rfl : y = x := Expr.sym.inj (hy.symm.trans hx)
        rw [hrest y honce, hvalue]
        exact Function.update_self ..

/--
The array elements that the value of an expression is computed from, also by way of scalars that
equations compute.
-/
inductive Sources (eqs : List Equation) (r : Reference) : Expr → Prop
  | element {e : Expr} (hr : r ∈ e.references) : Sources eqs r e
  | scalar {e : Expr} {eq : Equation} {x : String} (heq : eq ∈ eqs) (hlhs : eq.lhs = .sym x)
    (hx : x ∈ e.valueSymbols) (h : Sources eqs r eq.rhs) : Sources eqs r e

def Drawn (eqs : List Equation) (r : Reference) (e : Expr) : Prop :=
  ∃ eq ∈ eqs, ∃ x, eq.lhs = .sym x ∧ x ∈ e.valueSymbols ∧ Sources eqs r eq.rhs

/--
The array elements that may have to be read before an equation with the value `e` is reached: they
are needed by way of scalars, or in operations that are repeated.
-/
def ReadAhead (eqs : List Equation) (r : Reference) (e : Expr) : Prop :=
  Drawn eqs r e ∨
    ∃ o ∈ e.operations, 1 < (eqs.flatMap fun eq => eq.rhs.operations).count o ∧ r ∈ o.references

theorem Sources.mono {eqs eqs' : List Equation} (hsub : eqs ⊆ eqs') {r : Reference} {e : Expr}
    (h : Sources eqs r e) : Sources eqs' r e := by
  induction h with
  | element hr => exact .element hr
  | scalar heq hlhs hx _ ih => exact .scalar (hsub heq) hlhs hx ih

theorem Drawn.mono {eqs eqs' : List Equation} (hsub : eqs ⊆ eqs') {r : Reference} {e : Expr}
    (h : Drawn eqs r e) : Drawn eqs' r e := by
  obtain ⟨eq, heq, x, hlhs, hx, hr⟩ := h
  exact ⟨eq, hsub heq, x, hlhs, hx, hr.mono hsub⟩

theorem Sources.exists_reference {eqs : List Equation} {r : Reference} {e : Expr}
    (h : Sources eqs r e) : r ∈ e.references ∨ ∃ eq ∈ eqs, r ∈ eq.rhs.references := by
  induction h with
  | element hr => exact .inl hr
  | scalar heq _ _ _ ih =>
    rcases ih with hr | hr
    · exact .inr ⟨_, heq, hr⟩
    · exact .inr hr

theorem ReadAhead.exists_reference {eqs : List Equation} {r : Reference} {eq : Equation}
    (h : ReadAhead eqs r eq.rhs) (heq : eq ∈ eqs) : ∃ d ∈ eqs, r ∈ d.rhs.references := by
  rcases h with ⟨d, hd, x, -, -, hr⟩ | ⟨o, ho, -, hr⟩
  · rcases hr.exists_reference with hr | hr
    · exact ⟨d, hd, hr⟩
    · exact hr
  · exact ⟨eq, heq, (Expr.mem_operations.1 ho).2.mem_references hr⟩

section Agreement

variable {calls} {eqs : List Equation} {m m' : Memory K}

theorem value_eq_of_sources (h : Ordered eqs) (hm : ∀ eq ∈ eqs, eq.Holds calls m)
    (hm' : ∀ eq ∈ eqs, eq.Holds calls m')
    (hscalar : ∀ eq ∈ eqs, ∀ x ∈ eq.rhs.symbols, ¬ Assigned eqs x → m.scalar x = m'.scalar x)
    {e : Expr} (he : ∀ x ∈ e.symbols, ¬ Assigned eqs x → m.scalar x = m'.scalar x)
    (hsources : ∀ r, Sources eqs r e → (∀ x ∈ Expr.symbolsOfList r.indices, ¬ Assigned eqs x) ∧
      m.array (m.cell calls r) = m'.array (m.cell calls r)) :
    m.value calls e = m'.value calls e := by
  obtain ⟨rank, hrank⟩ := h.acyclic.exists_rank
  -- By induction on the rank of the scalars in the expression.
  have hranked (n : Nat) (e : Expr)
      (he : ∀ x ∈ e.symbols, ¬ Assigned eqs x → m.scalar x = m'.scalar x)
      (hlt : ∀ x ∈ e.valueSymbols, Assigned eqs x → rank x < n)
      (hsources : ∀ r, Sources eqs r e →
        (∀ x ∈ Expr.symbolsOfList r.indices, ¬ Assigned eqs x) ∧
          m.array (m.cell calls r) = m'.array (m.cell calls r)) :
      m.value calls e = m'.value calls e := by
    induction n generalizing e with
    | zero =>
      apply Memory.value_congr calls _ fun r hr => (hsources r (.element hr)).2
      intro x hx
      apply he x hx
      rcases Expr.mem_symbols.1 hx with hx | ⟨r, hr, hx⟩
      · exact fun hassigned => absurd (hlt x hx hassigned) (Nat.not_lt_zero _)
      · exact (hsources r (.element hr)).1 x hx
    | succ n ih =>
      apply Memory.value_congr calls _ fun r hr => (hsources r (.element hr)).2
      intro x hx
      by_cases hassigned : Assigned eqs x
      · rcases Expr.mem_symbols.1 hx with hx | ⟨r, hr, hx⟩
        · have hxn := hlt x hx hassigned
          obtain ⟨eq, heq, hlhs⟩ := hassigned
          rw [hm eq heq x hlhs, hm' eq heq x hlhs]
          apply ih eq.rhs (hscalar eq heq)
          · intro y hy hassigned
            have := (hrank eq heq x hlhs).2 y hy hassigned
            omega
          · exact fun r hr => hsources r (.scalar heq hlhs hx hr)
        · exact absurd hassigned ((hsources r (.element hr)).1 x hx)
      · exact he x hx hassigned
  apply hranked eqs.length e he _ hsources
  exact fun x _ ⟨eq, heq, hlhs⟩ => (hrank eq heq x hlhs).1

theorem value_eq_of_drawn (h : Ordered eqs) (hm : ∀ eq ∈ eqs, eq.Holds calls m)
    (hm' : ∀ eq ∈ eqs, eq.Holds calls m')
    (hscalar : ∀ eq ∈ eqs, ∀ x ∈ eq.rhs.symbols, ¬ Assigned eqs x → m.scalar x = m'.scalar x)
    {e : Expr} (he : ∀ x ∈ e.symbols, ¬ Assigned eqs x → m.scalar x = m'.scalar x)
    (hindices : ∀ r ∈ e.references, ∀ x ∈ Expr.symbolsOfList r.indices, ¬ Assigned eqs x)
    (hdrawn : ∀ r, Drawn eqs r e → (∀ x ∈ Expr.symbolsOfList r.indices, ¬ Assigned eqs x) ∧
      m.array (m.cell calls r) = m'.array (m.cell calls r)) :
    Memory.value calls ⟨m'.array, m.scalar⟩ e = m'.value calls e := by
  refine Memory.value_congr calls (fun x hx => ?_) fun _ _ => rfl
  dsimp only
  by_cases hassigned : Assigned eqs x
  · rcases Expr.mem_symbols.1 hx with hx | ⟨r, hr, hx⟩
    · obtain ⟨eq, heq, hlhs⟩ := hassigned
      rw [hm eq heq x hlhs, hm' eq heq x hlhs]
      apply value_eq_of_sources h hm hm' hscalar (hscalar eq heq)
      exact fun r hr => hdrawn r ⟨eq, heq, x, hlhs, hx, hr⟩
    · exact absurd hassigned (hindices r hr x hx)
  · exact he x hx hassigned

end Agreement

end Body

end Stencil
