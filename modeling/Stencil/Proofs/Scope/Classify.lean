import Mathlib.Data.List.ProdSigma
import Stencil.Proofs.Scope.Basic

/-!
This module contains the classification of conflicts: any two accesses to an array, at least one of
them a write, depend on each other in exactly one way if they can be compared, and in both ways if
they cannot.
-/

namespace Stencil

/-- A reference with an index in normal form along each dimension of its array. -/
structure Reference.WellFormed (r : Reference) : Prop where
  rank : r.indices.length = r.function.dimensions.length
  canonical : ∀ i ∈ r.indices, i.Canonical

namespace Scope

variable {eqs : List (Equation × IterationSpace)} {s : Scope} {f : GridFunction}
variable {a b w r : TimedAccess}

theorem matched_of_aligned (h : (ofEquations eqs).run.value = .ok s)
    (hrefs : ∀ e ∈ eqs, ∀ r ∈ e.1.references, r.WellFormed)
    (ha : a ∈ s.accesses f) (hb : b ∈ s.accesses f) (haligned : a.Aligned b) : a.Matched b := by
  obtain ⟨d, hd, q, hq, hqf, haq⟩ := exists_access h ha
  obtain ⟨e, he, r, hr, hrf, hbr⟩ := exists_access h hb
  have hqwf := hrefs d (List.mem_of_getElem? hd) q hq
  have hrwf := hrefs e (List.mem_of_getElem? he) r hr
  have hfunction : a.function = b.function := by
    rw [haq, hbr]
    exact hqf.trans hrf.symm
  have hcovered : a.indices.length = a.directions.length := by
    rw [haq]
    simpa using hqwf.rank
  refine ⟨haligned, hfunction, hcovered, ?_⟩
  rw [List.forall₂_iff_zip]
  refine ⟨haligned.rank, ?_⟩
  intro x y hxy
  obtain ⟨hx, hy⟩ := List.of_mem_zip hxy
  rw [haq] at hx
  rw [hbr] at hy
  exact (hqwf.canonical x hx).reversible (hrwf.canonical y hy)

/-- Exactly one of two propositions holds if an order is known, and both hold if it is not. -/
def Decided (order : Option Ordering) (p q : Prop) : Prop :=
  if order.isSome then (p ↔ ¬ q) else p ∧ q

theorem decided_isFlow_isAnti (h : r.Matched w) :
    Decided (r.order w) ((isFlow w r).run.value = .ok true)
      ((isAnti r w).run.value = .ok true) := by
  unfold Decided
  rw [isFlow_iff h, isAnti_iff h]
  cases r.order w with
  | none => simp
  | some o => cases o <;> simp

theorem decided_isOutput (h : a.Matched b) (hne : a.timestamp ≠ b.timestamp) :
    Decided (a.order b) ((isOutput a b).run.value = .ok true)
      ((isOutput b a).run.value = .ok true) := by
  unfold Decided
  rw [isOutput_iff h, isOutput_iff h.symm, h.order_swap]
  cases a.order b with
  | none => simp
  | some o =>
    cases o with
    | lt => simp
    | eq =>
      simp
      omega
    | gt => simp

theorem Decided.symm {o : Option Ordering} {p q : Prop} (h : Decided o p q) : Decided o q p := by
  unfold Decided at h ⊢
  rwa [iff_not_comm, and_comm]

theorem Decided.or {o : Option Ordering} {p q : Prop} (h : Decided o p q) : p ∨ q := by
  unfold Decided at h
  split at h
  · by_cases hq : q
    · exact .inr hq
    · exact .inl (h.2 hq)
  · exact .inl h.1

theorem exists_depends (h : (ofEquations eqs).run.value = .ok s) (ha : a ∈ s.accesses f)
    (hb : b ∈ s.accesses f) {kind : DependenceKind}
    (hkind : DependenceKind.ofModes a.access.mode b.access.mode = some kind)
    (hmatched : a.Matched b)
    (hne : a.timestamp ≠ b.timestamp) : ∃ kind, s.Depends kind a b ∨ s.Depends kind b a := by
  obtain ⟨-, -, hs⟩ := ofEquations_eq_ok h
  cases hamode : a.access.mode with
  | write =>
    have ha := mem_writes_of_mode h ha hamode
    cases hbmode : b.access.mode with
    | write =>
      have hb := mem_writes_of_mode h hb hbmode
      refine ⟨.output, ?_⟩
      rw [hs.depends_output_iff, hs.depends_output_iff]
      exact (decided_isOutput hmatched hne).or.imp (⟨⟨f, ha, hb⟩, ·⟩) (⟨⟨f, hb, ha⟩, ·⟩)
    | read =>
      have hb := mem_reads_of_mode h hb hbmode
      rcases (decided_isFlow_isAnti hmatched.symm).or with hflow | hanti
      · exact ⟨.flow, .inl (hs.depends_flow_iff.2 ⟨⟨f, ha, hb⟩, hflow⟩)⟩
      · exact ⟨.anti, .inr (hs.depends_anti_iff.2 ⟨⟨f, ha, hb⟩, hanti⟩)⟩
  | read =>
    have ha := mem_reads_of_mode h ha hamode
    cases hbmode : b.access.mode with
    | write =>
      have hb := mem_writes_of_mode h hb hbmode
      rcases (decided_isFlow_isAnti hmatched).or with hflow | hanti
      · exact ⟨.flow, .inr (hs.depends_flow_iff.2 ⟨⟨f, hb, ha⟩, hflow⟩)⟩
      · exact ⟨.anti, .inl (hs.depends_anti_iff.2 ⟨⟨f, hb, ha⟩, hanti⟩)⟩
    | read =>
      rw [hamode, hbmode] at hkind
      cases hkind

theorem not_isOutput_self (h : a.Matched a) : ¬ (isOutput a a).run.value = .ok true := by
  rw [isOutput_iff h, TimedAccess.order_self]
  simp

def conflicts (s : Scope) : List (TimedAccess × TimedAccess) :=
  s.writes.keys.flatMap fun f => s.writes.of f ×ˢ s.reads.of f

theorem writeReadPairs_eq_conflicts (s : Scope) :
    writeReadPairs s.reads s.writes = s.conflicts := by
  unfold writeReadPairs conflicts OrdMap.keys
  rw [List.flatMap_map]
  apply List.flatMap_congr
  intro e he
  rw [AccessMap.of_eq_of_mem he]
  rfl

def isIndeterminate (p : TimedAccess × TimedAccess) : Bool :=
  decide ((p.2.compare? p.1).run.value = .ok none)

theorem length_filter_add {test test' : TimedAccess → TimedAccess → Analysis Bool}
    {ps : List (TimedAccess × TimedAccess)} (hmatched : ∀ p ∈ ps, p.2.Matched p.1)
    (h : ∀ p ∈ ps, Decided (p.2.order p.1) ((test p.1 p.2).run.value = .ok true)
      ((test' p.2 p.1).run.value = .ok true)) :
    (ps.filter (passes test)).length + ((ps.map Prod.swap).filter (passes test')).length =
      ps.length + (ps.filter isIndeterminate).length := by
  induction ps with
  | nil => rfl
  | cons p ps ih =>
    rw [List.forall_mem_cons] at hmatched h
    have htail := ih hmatched.2 h.2
    have hboth := h.1
    have hindeterminate : isIndeterminate p = (p.2.order p.1).isNone := by
      unfold isIndeterminate
      rw [hmatched.1.value_compare?]
      cases p.2.order p.1 <;> simp
    rw [List.map_cons, List.filter_cons, List.filter_cons, List.filter_cons, hindeterminate]
    unfold passes at htail ⊢
    simp only [Prod.fst_swap, Prod.snd_swap, decide_eq_true_eq]
    cases ho : p.2.order p.1 with
    | none =>
      rw [Decided, ho] at hboth
      simp only [Option.isSome_none, Bool.false_eq_true, if_false] at hboth
      simp only [hboth.1, hboth.2, if_true, List.length_cons, Option.isNone_none]
      omega
    | some o =>
      rw [Decided, ho] at hboth
      simp only [Option.isSome_some, if_true] at hboth
      by_cases hopposite : (test' p.2 p.1).run.value = .ok true
      · simp [hboth, hopposite]
        omega
      · simp [hboth, hopposite]
        omega

section Pairs

variable {α : Type}

/-- All pairs of two members of a list, the one that comes first in front. -/
def pairs : List α → List (α × α)
  | [] => []
  | a :: as => as.map (a, ·) ++ pairs as

theorem pairwise_iff_pairs {R : α → α → Prop} {as : List α} :
    as.Pairwise R ↔ ∀ p ∈ pairs as, R p.1 p.2 := by
  induction as with
  | nil => simp [pairs]
  | cons a as ih =>
    rw [pairs, List.forall_mem_append, List.forall_mem_map, List.pairwise_cons, ih]

theorem length_filter_square {test : α × α → Bool} {as : List α}
    (hself : ∀ a ∈ as, test (a, a) = false) :
    ((as.flatMap fun b => as.map fun a => (a, b)).filter test).length =
      ((pairs as).filter test).length + (((pairs as).map Prod.swap).filter test).length := by
  have hcolumn (a : α) (bs : List α) (f : α → List (α × α)) :
      ((bs.flatMap fun b => (a, b) :: f b).filter test).length =
        ((bs.map (a, ·)).filter test).length + ((bs.flatMap f).filter test).length := by
    induction bs with
    | nil => rfl
    | cons b bs ih =>
      rw [List.flatMap_cons, List.flatMap_cons, List.map_cons, List.cons_append, List.filter_cons,
        List.filter_cons, List.filter_append, List.filter_append]
      split <;> simp only [List.length_append, List.length_cons, ih] <;> omega
  induction as with
  | nil => rfl
  | cons a as ih =>
    rw [List.forall_mem_cons] at hself
    have hswap : (as.map (a, ·)).map Prod.swap = as.map (·, a) := by simp
    rw [pairs, List.map_append, hswap]
    simp only [List.flatMap_cons, List.map_cons, List.filter_append, List.length_append, hcolumn,
      List.filter_cons, hself.1, ih hself.2, List.cons_append, Bool.false_eq_true, if_false]
    omega

end Pairs

def writeConflicts (s : Scope) : List (TimedAccess × TimedAccess) :=
  s.writes.keys.flatMap fun f => pairs (s.writes.of f)

theorem writeWritePairs_eq_flatMap (s : Scope) :
    writeWritePairs s.writes =
      s.writes.keys.flatMap fun f =>
        (s.writes.of f).flatMap fun w => (s.writes.of f).map fun w' => (w', w) := by
  unfold writeWritePairs OrdMap.keys
  rw [List.flatMap_map]
  apply List.flatMap_congr
  intro e he
  rw [AccessMap.of_eq_of_mem he]

theorem length_filter_writeWritePairs (s : Scope) {test : TimedAccess × TimedAccess → Bool}
    (hself : ∀ f, ∀ w ∈ s.writes.of f, test (w, w) = false) :
    ((writeWritePairs s.writes).filter test).length =
      (s.writeConflicts.filter test).length +
        ((s.writeConflicts.map Prod.swap).filter test).length := by
  rw [writeWritePairs_eq_flatMap]
  unfold writeConflicts
  induction s.writes.keys with
  | nil => rfl
  | cons f fs ih =>
    simp only [List.flatMap_cons, List.map_append, List.filter_append, List.length_append, ih,
      length_filter_square (hself f)]
    omega

section WellFormed

variable (h : (ofEquations eqs).run.value = .ok s)
variable (hrefs : ∀ e ∈ eqs, ∀ r ∈ e.1.references, r.WellFormed)
include h hrefs

theorem matched_write_read (hw : w ∈ s.writes.of f) (hr : r ∈ s.reads.of f) : r.Matched w :=
  matched_of_aligned h hrefs (List.mem_append_right _ hr) (List.mem_append_left _ hw)
    ((ofEquations_eq_ok h).2.2.aligned_write_read hw hr)

theorem matched_write_write (ha : a ∈ s.writes.of f) (hb : b ∈ s.writes.of f) : a.Matched b :=
  matched_of_aligned h hrefs (List.mem_append_left _ ha) (List.mem_append_left _ hb)
    ((ofEquations_eq_ok h).2.2.aligned_write_write ha hb)

theorem decided_flow_anti (hw : w ∈ s.writes.of f) (hr : r ∈ s.reads.of f) :
    Decided (r.order w) (s.Depends .flow w r) (s.Depends .anti r w) := by
  have hs := (ofEquations_eq_ok h).2.2
  have hdecided := decided_isFlow_isAnti (matched_write_read h hrefs hw hr)
  have hpair : ∃ f, w ∈ s.writes.of f ∧ r ∈ s.reads.of f := ⟨f, hw, hr⟩
  simpa only [hs.depends_flow_iff, hs.depends_anti_iff, hpair, true_and] using hdecided

theorem decided_output (ha : a ∈ s.writes.of f) (hb : b ∈ s.writes.of f)
    (hlt : a.timestamp < b.timestamp) :
    Decided (a.order b) (s.Depends .output a b) (s.Depends .output b a) := by
  have hs := (ofEquations_eq_ok h).2.2
  have hdecided := decided_isOutput (matched_write_write h hrefs ha hb) (Nat.ne_of_lt hlt)
  have hpair : ∃ f, a ∈ s.writes.of f ∧ b ∈ s.writes.of f := ⟨f, ha, hb⟩
  have hpair' : ∃ f, b ∈ s.writes.of f ∧ a ∈ s.writes.of f := ⟨f, hb, ha⟩
  simpa only [hs.depends_output_iff, hpair, hpair', true_and] using hdecided

theorem source_ne_sink {d : Dependence} (hd : d ∈ s.dependences) : d.source ≠ d.sink := by
  have hs := (ofEquations_eq_ok h).2.2
  have hdepends : s.Depends d.kind d.source d.sink := ⟨d, hd, rfl, rfl, rfl⟩
  obtain ⟨f, -, -, hkind⟩ := accesses_of_depends h hdepends
  intro heq
  -- An access has one mode, so only an output dependence could be on itself.
  cases hmode : d.sink.access.mode with
  | read =>
    rw [heq, hmode] at hkind
    cases hkind
  | write =>
    rw [heq, hmode] at hkind
    rw [← Option.some.inj hkind, heq, hs.depends_output_iff] at hdepends
    obtain ⟨⟨f, hsink, -⟩, htest⟩ := hdepends
    exact not_isOutput_self (matched_write_write h hrefs hsink hsink) htest

theorem length_flow_add_length_anti :
    s.flow.length + s.anti.length =
      s.conflicts.length + (s.conflicts.filter isIndeterminate).length := by
  have hs := (ofEquations_eq_ok h).2.2
  have hmatched : ∀ p ∈ s.conflicts, p.2.Matched p.1 := by
    intro p hp
    rw [← writeReadPairs_eq_conflicts] at hp
    obtain ⟨f, hw, hr⟩ := mem_writeReadPairs.1 hp
    exact matched_write_read h hrefs hw hr
  have hlength := length_filter_add hmatched fun p hp => decided_isFlow_isAnti (hmatched p hp)
  rw [← hlength, ← writeReadPairs_eq_conflicts, ← (gather_eq_ok hs.flow).1,
    ← (gather_eq_ok hs.anti).1, List.length_map, List.length_map]

theorem length_output :
    s.output.length =
      s.writeConflicts.length + (s.writeConflicts.filter isIndeterminate).length := by
  have hs := (ofEquations_eq_ok h).2.2
  have hpair : ∀ p ∈ s.writeConflicts, p.2.Matched p.1 ∧ p.1.timestamp < p.2.timestamp := by
    intro p hp
    obtain ⟨f, -, hp⟩ := List.mem_flatMap.1 hp
    have hboth : (s.writes.of f).Pairwise fun a b => b.Matched a ∧ a.timestamp < b.timestamp :=
      (pairwise_writes h f).imp_of_mem fun ha hb hlt =>
        ⟨matched_write_write h hrefs hb ha, hlt⟩
    exact pairwise_iff_pairs.1 hboth p hp
  have hself : ∀ f, ∀ w ∈ s.writes.of f, passes isOutput (w, w) = false := by
    intro f w hw
    exact decide_eq_false (not_isOutput_self (matched_write_write h hrefs hw hw))
  have hlength := length_filter_add (fun p hp => (hpair p hp).1) fun p hp =>
    (decided_isOutput (hpair p hp).1 (hpair p hp).2.ne').symm
  rw [← hlength, ← length_filter_writeWritePairs s hself, ← (gather_eq_ok hs.output).1,
    List.length_map]

end WellFormed

/--
Every conflict is classified: a write and a read of one array, or two writes of it, depend on each
other in exactly one way if they can be compared and in both ways if they cannot. No access depends
on itself, and there are no other dependences, so as many as there are conflicts and conflicts that
cannot be decided.
-/
theorem conflicts_classified (eqs : List (Equation × IterationSpace)) (s : Scope)
    (h : (ofEquations eqs).run.value = .ok s)
    (hrefs : ∀ e ∈ eqs, ∀ r ∈ e.1.references, r.WellFormed) :
    (∀ f, ∀ w ∈ s.writes.of f, ∀ r ∈ s.reads.of f, ∃ o, (r.compare? w).run.value = .ok o ∧
      Decided o (s.Depends .flow w r) (s.Depends .anti r w)) ∧
    (∀ f, (s.writes.of f).Pairwise fun w w' => ∃ o, (w.compare? w').run.value = .ok o ∧
      Decided o (s.Depends .output w w') (s.Depends .output w' w)) ∧
    (∀ d ∈ s.dependences, d.source ≠ d.sink ∧ ∃ f,
      match d.kind with
      | .flow => d.source ∈ s.writes.of f ∧ d.sink ∈ s.reads.of f
      | .anti => d.source ∈ s.reads.of f ∧ d.sink ∈ s.writes.of f
      | .output => d.source ∈ s.writes.of f ∧ d.sink ∈ s.writes.of f) ∧
    s.flow.length + s.anti.length =
      s.conflicts.length + (s.conflicts.filter isIndeterminate).length ∧
    s.output.length =
      s.writeConflicts.length + (s.writeConflicts.filter isIndeterminate).length := by
  refine ⟨?_, ?_, ?_, length_flow_add_length_anti h hrefs, length_output h hrefs⟩
  · intro f w hw r hr
    exact ⟨_, (matched_write_read h hrefs hw hr).value_compare?, decided_flow_anti h hrefs hw hr⟩
  · intro f
    apply (pairwise_writes h f).imp_of_mem
    intro a b ha hb hlt
    exact ⟨_, (matched_write_write h hrefs ha hb).value_compare?, decided_output h hrefs ha hb hlt⟩
  · intro d hd
    have hs := (ofEquations_eq_ok h).2.2
    have hdepends : s.Depends d.kind d.source d.sink := ⟨d, hd, rfl, rfl, rfl⟩
    refine ⟨source_ne_sink h hrefs hd, ?_⟩
    cases hkind : d.kind with
    | flow =>
      rw [hkind, hs.depends_flow_iff] at hdepends
      exact hdepends.1
    | anti =>
      rw [hkind, hs.depends_anti_iff] at hdepends
      obtain ⟨⟨f, hsink, hsource⟩, -⟩ := hdepends
      exact ⟨f, hsource, hsink⟩
    | output =>
      rw [hkind, hs.depends_output_iff] at hdepends
      exact hdepends.1

/-- `u[x] = u[x - 1] + u[g(x)]`, in which the second read cannot be compared with the write. -/
def opaqueUpdate : Equation :=
  ⟨.access (.line "u") [.sym "x"],
    .add [.access (.line "u") [.add [.num (-1), .sym "x"]],
      .access (.line "u") [.call "g" [.sym "x"]]], false⟩

theorem conflicts_classified_opaqueUpdate :
    ∃ s, (ofEquations [(opaqueUpdate, .empty)]).run.value = .ok s ∧
      (∀ r ∈ opaqueUpdate.references, r.WellFormed) ∧ s.flow.length + s.anti.length = 2 + 1 := by
  have hcounts : (ofEquations [(opaqueUpdate, .empty)]).run.value.map
      (fun s => (s.conflicts.length, (s.conflicts.filter isIndeterminate).length)) =
        .ok (2, 1) := by
    decide +kernel
  have hsym : (Expr.sym "x").Canonical := .sym "x"
  have hback : (Expr.add [.num (-1), .sym "x"]).Canonical := by
    refine .add (by simp [hsym, Expr.Canonical.num]) ⟨?_, ?_, ?_, ?_, ?_⟩
    all_goals decide +kernel
  have hcall : (Expr.call "g" [.sym "x"]).Canonical := .call "g" (by simp [hsym])
  have hwf : ∀ r ∈ opaqueUpdate.references, r.WellFormed := by
    intro r hr
    simp only [opaqueUpdate, Equation.references, Equation.reads, Equation.write?,
      Expr.toReference?, Expr.references, Expr.referencesOfList, Option.toList_some,
      List.append_nil, List.cons_append, List.nil_append, List.mem_cons, List.not_mem_nil,
      or_false] at hr
    rcases hr with rfl | rfl | rfl
    · exact ⟨rfl, by simp [hsym]⟩
    · exact ⟨rfl, by simp [hback]⟩
    · exact ⟨rfl, by simp [hcall]⟩
  cases hs : (ofEquations [(opaqueUpdate, .empty)]).run.value with
  | error e =>
    rw [hs] at hcounts
    cases hcounts
  | ok s =>
    rw [hs] at hcounts
    obtain ⟨hlength, hfilter⟩ := Prod.mk.inj (Except.ok.inj hcounts)
    have hcount := (conflicts_classified _ s hs (by simpa using hwf)).2.2.2.1
    rw [hlength, hfilter] at hcount
    exact ⟨s, rfl, hwf, hcount⟩

end Scope

end Stencil
