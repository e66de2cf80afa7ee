import Mathlib.Logic.Relation
import Stencil.Proofs.FlowGraph

/-!
This module contains what it means that an equation is found to compute the same value at all
times. The search goes from an equation to the first definition of everything that it reads, while
the value that it reads is that of the latest definition before it; the two are the same if nothing
is read that was defined twice.
-/

namespace Stencil

open Relation

def Equation.AccessesTime (eq : Equation) : Prop :=
  ∃ r ∈ eq.references, ∃ d ∈ r.function.dimensions, d.isTime = true

/-- A scalar has the name of a dimension of time of some array of the program, or of its root. -/
def Equation.NamesTime (eqs : List Equation) (eq : Equation) : Prop :=
  ∃ s ∈ eq.lhs.symbols ++ eq.rhs.symbols, ∃ eq' ∈ eqs, ∃ r ∈ eq'.references,
    ∃ d ∈ r.function.dimensions, d.isTime = true ∧ (s = d.name ∨ s = d.root.name)

namespace FlowGraph

theorem isTimeless_iff {eqs : List Equation} {eq : Equation} :
    isTimeless (ofEquations eqs).timeIndices eq = true ↔
      ¬eq.AccessesTime ∧ ¬eq.NamesTime eqs := by
  have hequations : (ofEquations eqs).equations = eqs := map_equation_nodes eqs
  have htime (s : String) : (ofEquations eqs).timeIndices.contains s = true ↔
      ∃ eq' ∈ eqs, ∃ r ∈ eq'.references, ∃ d ∈ r.function.dimensions,
        d.isTime = true ∧ (s = d.name ∨ s = d.root.name) := by
    unfold timeIndices
    rw [OrdSet.contains_ofList, decide_eq_true_iff, hequations]
    simp only [List.mem_flatMap, List.mem_filter, List.mem_cons, List.not_mem_nil, or_false]
    grind
  unfold isTimeless Equation.AccessesTime Equation.NamesTime
  simp only [← htime, Bool.and_eq_true, Bool.not_eq_true', ← Bool.not_eq_true, List.any_eq_true]

section Walks

variable (eqs : List Equation)

def ReadsAt (j i : Nat) (lhs : Expr) : Prop :=
  i < j ∧ Defines eqs i lhs ∧ ∃ eq, eqs[j]? = some eq ∧ eq.refersTo lhs = true

def ReadsFirst (j i : Nat) : Prop :=
  ∃ lhs, ReadsAt eqs j i lhs ∧ ∀ k < i, ¬Defines eqs k lhs

def ReadsLatest (j i : Nat) : Prop :=
  ∃ lhs, ReadsAt eqs j i lhs ∧ ∀ k, i < k → k < j → ¬Defines eqs k lhs

/-- Nothing along the way through first definitions depends on time. -/
def Steady (i : Nat) : Prop :=
  ∀ j, ReflTransGen (ReadsFirst eqs) i j →
    ∀ eq, eqs[j]? = some eq → ¬eq.AccessesTime ∧ ¬eq.NamesTime eqs

end Walks

variable {eqs : List Equation}

theorem steady_iff {j : Nat} : Steady eqs j ↔
    (∀ eq, eqs[j]? = some eq → ¬eq.AccessesTime ∧ ¬eq.NamesTime eqs) ∧
      ∀ i, ReadsFirst eqs j i → Steady eqs i := by
  constructor
  · intro h
    exact ⟨h j .refl, fun i hi k hk => h k (.head hi hk)⟩
  · rintro ⟨hself, hreads⟩ k hk
    rcases hk.cases_head with rfl | ⟨i, hi, hk⟩
    · exact hself
    · exact hreads i hi k hk

structure Judged (eqs : List Equation) (vs : List (Expr × Bool)) : Prop where
  lhs : ∀ i < vs.length, ∀ l, Defines eqs i l ↔ (vs.map (·.1))[i]? = some l
  steady : ∀ (i : Nat) (v : Expr × Bool), vs[i]? = some v → (v.2 = true ↔ Steady eqs i)

theorem Judged.exists_find? {vs : List (Expr × Bool)} (h : Judged eqs vs) {k : Nat} {l : Expr}
    (hk : k < vs.length) (hdefines : Defines eqs k l) :
    ∃ i ≤ k, Defines eqs i l ∧ (∀ k < i, ¬Defines eqs k l) ∧
      (((vs.find? (·.1 == l)).map (·.2)).getD true = true ↔ Steady eqs i) := by
  have hmem : l ∈ vs.map (·.1) := List.mem_of_getElem? ((h.lhs k hk l).1 hdefines)
  obtain ⟨v, hv, hvl⟩ := List.mem_map.1 hmem
  cases hfind : vs.find? (·.1 == l) with
  | none => exact absurd hvl (by simpa using List.find?_eq_none.1 hfind v hv)
  | some w =>
    obtain ⟨hw, i, hi, rfl, hbefore⟩ := List.find?_eq_some_iff_getElem.1 hfind
    have hfirst : ∀ k < i, ¬Defines eqs k l := by
      intro k hk hdefines
      rw [h.lhs k (hk.trans hi), List.getElem?_map, List.getElem?_eq_getElem (hk.trans hi),
        Option.map_some, Option.some_inj] at hdefines
      simpa [hdefines] using hbefore k hk
    refine ⟨i, ?_, ?_, hfirst, h.steady i _ (List.getElem?_eq_getElem hi)⟩
    · exact Nat.le_of_not_lt fun hlt => hfirst k hlt hdefines
    · rw [h.lhs i hi, List.getElem?_map, List.getElem?_eq_getElem hi]
      simpa using hw

theorem Judged.concat {vs : List (Expr × Bool)} (h : Judged eqs vs) {n : FlowNode}
    (hn : (ofEquations eqs).nodes[vs.length]? = some n) :
    Judged eqs (vs ++ [(n.lhs, isTimeless (ofEquations eqs).timeIndices n.equation &&
      n.reads.toList.all fun l => ((vs.find? (·.1 == l)).map (·.2)).getD true)]) := by
  have hequation := getElem?_equation hn
  have hreads : (∀ l ∈ n.reads.toList, ((vs.find? (·.1 == l)).map (·.2)).getD true = true) ↔
      ∀ i, ReadsFirst eqs vs.length i → Steady eqs i := by
    constructor
    · rintro hall i ⟨l, ⟨hi, hdefines, eq, heq, hrefers⟩, hfirst⟩
      obtain rfl : n.equation = eq := Option.some.inj (hequation.symm.trans heq)
      obtain ⟨i', hi', hdefines', hfirst', hverdict⟩ := h.exists_find? hi hdefines
      obtain rfl : i' = i := by
        apply Nat.le_antisymm hi'
        exact Nat.le_of_not_lt fun hlt => hfirst i' hlt hdefines'
      exact hverdict.1 (hall l ((mem_reads_iff hn).2 ⟨hrefers, i', hi, hdefines⟩))
    · intro hall l hl
      obtain ⟨hrefers, k, hk, hdefines⟩ := (mem_reads_iff hn).1 hl
      obtain ⟨i, hi, hdefines', hfirst, hverdict⟩ := h.exists_find? hk hdefines
      exact hverdict.2 (hall i ⟨l, ⟨by omega, hdefines', _, hequation, hrefers⟩, hfirst⟩)
  constructor
  · intro i hi l
    rw [List.map_append, List.getElem?_append, List.length_map]
    split
    · next hlt => exact h.lhs i hlt l
    · next hge =>
      obtain rfl : i = vs.length := by
        rw [List.length_append, List.length_singleton] at hi
        omega
      simp [Defines, hequation, FlowNode.lhs]
  · intro i v hv
    rw [List.getElem?_append] at hv
    split at hv
    · exact h.steady i v hv
    · rw [List.getElem?_singleton] at hv
      split at hv
      · obtain rfl : i = vs.length := by omega
        obtain rfl := Option.some.inj hv
        rw [Bool.and_eq_true, List.all_eq_true, isTimeless_iff, hreads, steady_iff, hequation]
        simp
      · cases hv

theorem judged_invariance {vs : List (Expr × Bool)} (h : Judged eqs vs) {ns : List FlowNode}
    (hns : (ofEquations eqs).nodes.drop vs.length = ns) :
    Judged eqs (invariance (ofEquations eqs).timeIndices vs ns) ∧
      (invariance (ofEquations eqs).timeIndices vs ns).length = vs.length + ns.length := by
  induction ns generalizing vs with
  | nil => exact ⟨h, rfl⟩
  | cons n ns ih =>
    have hn : (ofEquations eqs).nodes[vs.length]? = some n := by
      rw [← List.head?_drop, hns, List.head?_cons]
    rw [invariance]
    obtain ⟨hjudged, hlength⟩ := ih (h.concat hn) (by
      rw [List.length_append, List.length_singleton, ← List.drop_drop, hns, List.drop_one,
        List.tail_cons])
    refine ⟨hjudged, hlength.trans ?_⟩
    simp only [List.length_append, List.length_cons, List.length_nil]
    omega

theorem judged_invariances (eqs : List Equation) :
    Judged eqs (ofEquations eqs).invariances ∧
      (ofEquations eqs).invariances.length = eqs.length := by
  have hnil : Judged eqs [] := ⟨fun i hi => absurd hi (by simp), fun i v hv => by simp at hv⟩
  have h := judged_invariance hnil (List.drop_zero ..)
  rwa [List.length_nil, length_nodes, Nat.zero_add] at h

def DefinedLast (eqs : List Equation) (l : Expr) (i : Nat) : Prop :=
  Defines eqs i l ∧ ∀ k, i < k → ¬Defines eqs k l

theorem find?_reverse_eq_some {α : Type} {vs : List α} {p : α → Bool} {i : Nat}
    (hi : i < vs.length) (hp : p vs[i] = true)
    (hlast : ∀ k (hk : k < vs.length), i < k → p vs[k] = false) :
    vs.reverse.find? p = some vs[i] := by
  rw [List.find?_eq_some_iff_getElem]
  refine ⟨hp, vs.length - 1 - i, by rw [List.length_reverse]; omega, ?_, ?_⟩
  · rw [List.getElem_reverse]
    congr 1
    omega
  · intro k hk
    rw [List.getElem_reverse, hlast _ _ (by omega), Bool.not_false]

theorem isTimeInvariantAt_iff {l : Expr} {i : Nat} (h : DefinedLast eqs l i) :
    (ofEquations eqs).isTimeInvariantAt l = true ↔ Steady eqs i := by
  obtain ⟨hjudged, hlength⟩ := judged_invariances eqs
  have hi : i < (ofEquations eqs).invariances.length := by
    rw [hlength]
    simpa using (List.getElem?_eq_some_iff.1 h.1).1
  have hlhs {k : Nat} (hk : k < (ofEquations eqs).invariances.length) :
      (ofEquations eqs).invariances[k].1 = l ↔ Defines eqs k l := by
    rw [hjudged.lhs k hk, List.getElem?_map, List.getElem?_eq_getElem hk, Option.map_some,
      Option.some_inj]
  unfold isTimeInvariantAt
  rw [find?_reverse_eq_some hi]
  · exact hjudged.steady i _ (List.getElem?_eq_getElem hi)
  · exact beq_iff_eq.2 ((hlhs hi).2 h.1)
  · intro k hk hik
    rw [beq_eq_false_iff_ne, Ne, hlhs hk]
    exact h.2 k hik

theorem le_of_walk {i j : Nat} (h : ReflTransGen (ReadsLatest eqs) i j) : j ≤ i := by
  induction h with
  | refl => exact Nat.le_refl i
  | tail _ hread ih =>
    obtain ⟨lhs, hat, -⟩ := hread
    exact hat.1.le.trans ih

theorem walk_first_of_once {i : Nat}
    (honce : ∀ j, ReflTransGen (ReadsLatest eqs) i j → ∀ k k' lhs, ReadsAt eqs j k lhs →
      ReadsAt eqs j k' lhs → k = k')
    {j : Nat} (h : ReflTransGen (ReadsLatest eqs) i j) : ReflTransGen (ReadsFirst eqs) i j := by
  induction h with
  | refl => exact .refl
  | @tail j k hj hread ih =>
    obtain ⟨lhs, hat, -⟩ := hread
    refine ih.tail ⟨lhs, hat, fun k' hk' hdefines => ?_⟩
    have hsame := honce j hj k k' lhs hat ⟨hk'.trans hat.1, hdefines, hat.2.2⟩
    omega

/--
The last definition of a left-hand side is found to be invariant exactly if nothing depends on time
along the way through first definitions. If nothing is read that was defined twice before, then this
is the way through the definitions that are read, so no array along time is accessed on it.
-/
theorem isTimeInvariantAt_walk {eqs : List Equation} {l : Expr} {i : Nat}
    (h : DefinedLast eqs l i) :
    ((ofEquations eqs).isTimeInvariantAt l = true ↔
      ∀ j, ReflTransGen (ReadsFirst eqs) i j →
        ∀ eq, eqs[j]? = some eq → ¬eq.AccessesTime ∧ ¬eq.NamesTime eqs) ∧
    ((∀ j, ReflTransGen (ReadsLatest eqs) i j → ∀ k k' lhs, ReadsAt eqs j k lhs →
        ReadsAt eqs j k' lhs → k = k') →
      (ofEquations eqs).isTimeInvariantAt l = true →
      ∀ j, ReflTransGen (ReadsLatest eqs) i j → ∀ eq, eqs[j]? = some eq → ¬eq.AccessesTime) := by
  refine ⟨isTimeInvariantAt_iff h, fun honce hinvariant j hj eq heq => ?_⟩
  exact ((isTimeInvariantAt_iff h).1 hinvariant j (walk_first_of_once honce hj) eq heq).1

def constantAt : Expr := .access (.declare "m" .dense [.space "x"] [.ofInt 8]) [.sym "x"]

def evolvingAt : Expr :=
  .access (.declare "u" .dense [.time "time", .space "x"] [.ofInt 8, .ofInt 8])
    [.sym "time", .sym "x"]

def resultAt : Expr := .access (.declare "v" .dense [.space "x"] [.ofInt 8]) [.sym "x"]

/-- The equations `s = m[x]; v[x] = s; s = u[time, x]`. -/
def reused : List Equation :=
  [⟨.sym "s", constantAt, false⟩, ⟨resultAt, .sym "s", false⟩, ⟨.sym "s", evolvingAt, false⟩]

theorem isTimeInvariantAt_walk_reused :
    DefinedLast reused resultAt 1 ∧ (ofEquations reused).isTimeInvariantAt resultAt = true ∧
      ∀ j, ReflTransGen (ReadsLatest reused) 1 j →
        ∀ eq, reused[j]? = some eq → ¬eq.AccessesTime := by
  have hlast : DefinedLast reused resultAt 1 := by
    refine ⟨rfl, fun k hk hdefines => ?_⟩
    have hlength : k < 3 := (List.getElem?_eq_some_iff.1 hdefines).1
    obtain rfl : k = 2 := by omega
    exact absurd (Option.some.inj hdefines) (by decide +kernel)
  have hinvariant : (ofEquations reused).isTimeInvariantAt resultAt = true := by decide +kernel
  refine ⟨hlast, hinvariant, (isTimeInvariantAt_walk hlast).2 ?_ hinvariant⟩
  intro j hj k k' lhs hk hk'
  have hle := le_of_walk hj
  have hlt := hk.1
  have hlt' := hk'.1
  omega

/-- The equations `s = m[x]; s = u[time, x]; v[x] = s`. -/
def reassigned : List Equation :=
  [⟨.sym "s", constantAt, false⟩, ⟨.sym "s", evolvingAt, false⟩, ⟨resultAt, .sym "s", false⟩]

/--
The element `v[x]` is found to be invariant, but the value that it gets is that of `u[time, x]`.
-/
theorem isTimeInvariantAt_reassigned :
    DefinedLast reassigned resultAt 2 ∧
      (ofEquations reassigned).isTimeInvariantAt resultAt = true ∧
      ReflTransGen (ReadsLatest reassigned) 2 1 ∧
      ∃ eq, reassigned[1]? = some eq ∧ eq.AccessesTime := by
  refine ⟨⟨rfl, fun k hk hdefines => ?_⟩, by decide +kernel, .single ⟨.sym "s", ?_, ?_⟩, ?_⟩
  · have hlength : k < 3 := (List.getElem?_eq_some_iff.1 hdefines).1
    omega
  · exact ⟨Nat.lt_succ_self 1, rfl, _, rfl, by decide⟩
  · intro k hk hk'
    omega
  · refine ⟨_, rfl, ⟨_, List.mem_cons_self .., .time "time", ?_, rfl⟩⟩
    exact List.mem_cons_self ..

end FlowGraph

end Stencil
