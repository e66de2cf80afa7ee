import Stencil.Proofs.Access
import Stencil.Proofs.OrdMap
import Stencil.Scope

/-!
This module contains what a scope consists of: its entries are the accesses of the equations, and
its dependences are the pairs of entries that pass the test of their kind.
-/

namespace Stencil

theorem Equation.value_lowerAll (eqs : List Equation) (directions : OrdMap Dimension Direction) :
    (lowerAll eqs directions).value =
      eqs.map fun eq => (eq.lower (Slot.collect eqs).value directions).value := by
  unfold lowerAll
  rw [Checked.value_bind, Checked.value_mapM]

theorem Equation.map_equation_lowerAll (eqs : List Equation)
    (directions : OrdMap Dimension Direction) :
    (lowerAll eqs directions).value.map (·.equation) = eqs := by
  rw [value_lowerAll, List.map_map]
  exact List.map_id _

theorem Equation.dataSpace_of_mem_lowerAll {eqs : List Equation}
    {directions : OrdMap Dimension Direction} {l : LoweredEquation}
    (hl : l ∈ (lowerAll eqs directions).value) : l.dataSpace = l.equation.dataSpace.value := by
  rw [value_lowerAll, List.mem_map] at hl
  obtain ⟨eq, -, rfl⟩ := hl
  rfl

namespace AccessMap

theorem of_push (m : AccessMap) (a : TimedAccess) (f : GridFunction) :
    (m.push a).of f = if a.function = f then m.of f ++ [a] else m.of f := by
  unfold push of
  rw [OrdMap.find?_alter]
  split
  · next hf => simp [hf]
  · rfl

theorem of_foldl_push (as : List TimedAccess) (m : AccessMap) (f : GridFunction) :
    of (as.foldl push m) f = m.of f ++ as.filter (·.function = f) := by
  induction as generalizing m with
  | nil => simp
  | cons a as ih =>
    rw [List.foldl_cons, ih, of_push, List.filter_cons]
    by_cases hf : a.function = f
    · simp [hf]
    · simp [hf]

theorem of_ofList (as : List TimedAccess) (f : GridFunction) :
    (ofList as).of f = as.filter (·.function = f) := by
  unfold ofList
  rw [of_foldl_push]
  rfl

theorem of_eq_of_mem {m : AccessMap} {e : GridFunction × List TimedAccess} (h : e ∈ m.entries) :
    m.of e.1 = e.2 := by
  unfold of
  rw [OrdMap.find?_eq_some_iff.2 h]
  rfl

theorem mem_entries_of_mem {m : AccessMap} {f : GridFunction} {a : TimedAccess}
    (h : a ∈ m.of f) : (f, m.of f) ∈ m.entries := by
  unfold of at h ⊢
  cases hfind : m.find? f with
  | none => simp [hfind] at h
  | some as => exact OrdMap.find?_eq_some_iff.1 hfind

end AccessMap

namespace Equation

theorem exists_reference_of_mem_timedWrites {space : IterationSpace} {t : Nat} {eq : Equation}
    {a : TimedAccess} (h : a ∈ eq.timedWrites space t) :
    ∃ r, eq.write? = some r ∧ a = .ofReference space t eq.isIncrement .write r := by
  unfold timedWrites at h
  simp only [List.mem_map, Option.mem_toList] at h
  obtain ⟨r, hr, ha⟩ := h
  exact ⟨r, hr, ha.symm⟩

theorem exists_reference_of_mem_timedReads {space : IterationSpace} {t : Nat} {eq : Equation}
    {a : TimedAccess} (h : a ∈ eq.timedReads space t) :
    ∃ r ∈ eq.references, a = .ofReference space t eq.isIncrement .read r := by
  unfold timedReads at h
  simp only [List.mem_map, List.mem_append] at h
  obtain ⟨r, hr, ha⟩ := h
  refine ⟨r, ?_, ha.symm⟩
  unfold references
  rw [List.mem_append]
  rcases hr with hr | hr
  · exact .inr hr
  · split at hr
    · exact .inl hr
    · cases hr

end Equation

def DependenceKind.ofModes : AccessMode → AccessMode → Option DependenceKind
  | .write, .read => some .flow
  | .read, .write => some .anti
  | .write, .write => some .output
  | .read, .read => none

theorem Dependence.firstCause_cons (d : Dimension) (ds : List Dimension) (e : Expr)
    (v : OffsetVector) :
    firstCause (d :: ds) (e :: v) =
      if e.toInt?.all (0 < ·) then some d else firstCause ds v := by
  unfold firstCause
  rw [List.zip_cons_cons, List.find?_cons]
  cases e.toInt? with
  | none => rfl
  | some i => by_cases hi : 0 < i <;> simp [hi]

namespace Scope

def passes (test : TimedAccess → TimedAccess → Analysis Bool) (p : TimedAccess × TimedAccess) :
    Bool :=
  decide ((test p.1 p.2).run.value = .ok true)

def ends (d : Dependence) : TimedAccess × TimedAccess := (d.source, d.sink)

theorem between_eq_ok {kind : DependenceKind} {a b : TimedAccess} {d : Dependence}
    (h : (Dependence.between kind a b).run.value = .ok d) :
    d.source = a ∧ d.sink = b ∧ d.kind = kind ∧ (a.distance b).run.value = .ok d.distance ∧
      d.cause = Dependence.firstCause a.dimensions d.distance ∧
      ∀ cause, d.cause = some cause →
        d.isIndirect = (Dependence.isIrregularAlong a b cause).value := by
  unfold Dependence.between at h
  rw [Analysis.value_bind_eq_ok] at h
  obtain ⟨v, hv, h⟩ := h
  dsimp only at h
  split at h
  · next cause hcause =>
    rw [Analysis.value_bind_eq_ok] at h
    obtain ⟨i, hi, hd⟩ := h
    obtain rfl := Except.ok.inj hd
    refine ⟨rfl, rfl, rfl, hv, rfl, ?_⟩
    intro cause' hcause'
    rw [Option.some.inj (hcause.symm.trans hcause')] at hi
    exact (Except.ok.inj hi).symm
  · next hcause =>
    rw [Analysis.value_bind_eq_ok] at h
    obtain ⟨i, -, hd⟩ := h
    obtain rfl := Except.ok.inj hd
    refine ⟨rfl, rfl, rfl, hv, rfl, ?_⟩
    intro cause' hcause'
    cases hcause.symm.trans hcause'

theorem gather_eq_ok {kind : DependenceKind} {test : TimedAccess → TimedAccess → Analysis Bool}
    {ps : List (TimedAccess × TimedAccess)} {ds : List Dependence}
    (h : (gather kind test ps).run.value = .ok ds) :
    ds.map ends = ps.filter (passes test) ∧
      (∀ p ∈ ps, ∃ t, (test p.1 p.2).run.value = .ok t) ∧
      ∀ d ∈ ds, (Dependence.between kind d.source d.sink).run.value = .ok d := by
  induction ps generalizing ds with
  | nil =>
    obtain rfl := Except.ok.inj h
    simp
  | cons p ps ih =>
    obtain ⟨a, b⟩ := p
    rw [gather, Analysis.value_bind_eq_ok] at h
    obtain ⟨t, ht, h⟩ := h
    cases t with
    | true =>
      simp only [if_true, Analysis.value_bind_eq_ok] at h
      obtain ⟨d, hd, rest, hrest, hds⟩ := h
      obtain rfl := Except.ok.inj hds
      obtain ⟨hends, htests, hbetween⟩ := ih hrest
      obtain ⟨hsource, hsink, -⟩ := between_eq_ok hd
      have hpass : passes test (a, b) = true := decide_eq_true ht
      refine ⟨?_, ?_, ?_⟩
      · rw [List.filter_cons_of_pos hpass, List.map_cons, hends, ends, hsource, hsink]
      · exact List.forall_mem_cons.2 ⟨⟨true, ht⟩, htests⟩
      · refine List.forall_mem_cons.2 ⟨?_, hbetween⟩
        rw [hsource, hsink]
        exact hd
    | false =>
      simp only [Bool.false_eq_true, if_false] at h
      obtain ⟨hends, htests, hbetween⟩ := ih h
      have hpass : ¬ passes test (a, b) = true := by simp [passes, ht]
      refine ⟨?_, ?_, hbetween⟩
      · rw [List.filter_cons_of_neg hpass, hends]
      · exact List.forall_mem_cons.2 ⟨⟨false, ht⟩, htests⟩

theorem kind_of_mem_gathered {kind : DependenceKind}
    {test : TimedAccess → TimedAccess → Analysis Bool} {ps : List (TimedAccess × TimedAccess)}
    {ds : List Dependence} {d : Dependence} (h : (gather kind test ps).run.value = .ok ds)
    (hd : d ∈ ds) : d.kind = kind :=
  (between_eq_ok ((gather_eq_ok h).2.2 d hd)).2.2.1

theorem mem_writeReadPairs {reads writes : AccessMap} {w r : TimedAccess} :
    (w, r) ∈ writeReadPairs reads writes ↔ ∃ f, w ∈ writes.of f ∧ r ∈ reads.of f := by
  unfold writeReadPairs
  simp only [List.mem_flatMap, List.mem_map, Prod.mk.injEq]
  constructor
  · rintro ⟨e, he, w, hw, r, hr, rfl, rfl⟩
    exact ⟨e.1, by rwa [AccessMap.of_eq_of_mem he], hr⟩
  · rintro ⟨f, hw, hr⟩
    exact ⟨_, AccessMap.mem_entries_of_mem hw, w, hw, r, hr, rfl, rfl⟩

theorem mem_writeWritePairs {writes : AccessMap} {a b : TimedAccess} :
    (a, b) ∈ writeWritePairs writes ↔ ∃ f, a ∈ writes.of f ∧ b ∈ writes.of f := by
  unfold writeWritePairs
  simp only [List.mem_flatMap, List.mem_map, Prod.mk.injEq]
  constructor
  · rintro ⟨e, he, b, hb, a, ha, rfl, rfl⟩
    exact ⟨e.1, by rwa [AccessMap.of_eq_of_mem he], by rwa [AccessMap.of_eq_of_mem he]⟩
  · rintro ⟨f, ha, hb⟩
    exact ⟨_, AccessMap.mem_entries_of_mem ha, b, hb, a, ha, rfl, rfl⟩

structure Gathered (s : Scope) : Prop where
  flow : (gather .flow isFlow (writeReadPairs s.reads s.writes)).run.value = .ok s.flow
  anti : (gather .anti isAnti ((writeReadPairs s.reads s.writes).map Prod.swap)).run.value =
    .ok s.anti
  output : (gather .output isOutput (writeWritePairs s.writes)).run.value = .ok s.output

theorem ofEquations_eq_ok {eqs : List (Equation × IterationSpace)} {s : Scope}
    (h : (ofEquations eqs).run.value = .ok s) :
    s.reads = .ofList (eqs.zipIdx.flatMap fun e => e.1.1.timedReads e.1.2 e.2) ∧
      s.writes = .ofList (eqs.zipIdx.flatMap fun e => e.1.1.timedWrites e.1.2 e.2) ∧
      Gathered s := by
  unfold ofEquations ofAccesses at h
  simp only [Analysis.value_bind_eq_ok] at h
  obtain ⟨flow, hflow, anti, hanti, output, houtput, hs⟩ := h
  obtain rfl := Except.ok.inj hs
  exact ⟨rfl, rfl, hflow, hanti, houtput⟩

section Entries

variable {eqs : List (Equation × IterationSpace)} {s : Scope} {f : GridFunction} {a : TimedAccess}

theorem exists_timedWrite
    (ha : a ∈ (AccessMap.ofList (eqs.zipIdx.flatMap fun e => e.1.1.timedWrites e.1.2 e.2)).of f) :
    ∃ e r, eqs[a.timestamp]? = some e ∧ e.1.write? = some r ∧ r.function = f ∧
      a = .ofReference e.2 a.timestamp e.1.isIncrement .write r := by
  rw [AccessMap.of_ofList, List.mem_filter, List.mem_flatMap] at ha
  obtain ⟨⟨⟨e, t⟩, he, ha⟩, hf⟩ := ha
  obtain ⟨r, hr, rfl⟩ := Equation.exists_reference_of_mem_timedWrites ha
  exact ⟨e, r, List.mem_zipIdx_iff_getElem?.1 he, hr, of_decide_eq_true hf, rfl⟩

theorem exists_timedRead
    (ha : a ∈ (AccessMap.ofList (eqs.zipIdx.flatMap fun e => e.1.1.timedReads e.1.2 e.2)).of f) :
    ∃ e, eqs[a.timestamp]? = some e ∧ ∃ r ∈ e.1.references, r.function = f ∧
      a = .ofReference e.2 a.timestamp e.1.isIncrement .read r := by
  rw [AccessMap.of_ofList, List.mem_filter, List.mem_flatMap] at ha
  obtain ⟨⟨⟨e, t⟩, he, ha⟩, hf⟩ := ha
  obtain ⟨r, hr, rfl⟩ := Equation.exists_reference_of_mem_timedReads ha
  exact ⟨e, List.mem_zipIdx_iff_getElem?.1 he, r, hr, of_decide_eq_true hf, rfl⟩

theorem exists_write (h : (ofEquations eqs).run.value = .ok s) (ha : a ∈ s.writes.of f) :
    ∃ e r, eqs[a.timestamp]? = some e ∧ e.1.write? = some r ∧ r.function = f ∧
      a = .ofReference e.2 a.timestamp e.1.isIncrement .write r := by
  rw [(ofEquations_eq_ok h).2.1] at ha
  exact exists_timedWrite ha

theorem exists_read (h : (ofEquations eqs).run.value = .ok s) (ha : a ∈ s.reads.of f) :
    ∃ e, eqs[a.timestamp]? = some e ∧ ∃ r ∈ e.1.references, r.function = f ∧
      a = .ofReference e.2 a.timestamp e.1.isIncrement .read r := by
  rw [(ofEquations_eq_ok h).1] at ha
  exact exists_timedRead ha

theorem exists_access (h : (ofEquations eqs).run.value = .ok s) (ha : a ∈ s.accesses f) :
    ∃ e, eqs[a.timestamp]? = some e ∧ ∃ r ∈ e.1.references, r.function = f ∧
      a = .ofReference e.2 a.timestamp e.1.isIncrement a.access.mode r := by
  rcases List.mem_append.1 ha with ha | ha
  · obtain ⟨e, r, he, hr, hf, heq⟩ := exists_write h ha
    have hmem : r ∈ e.1.references := List.mem_append_left _ (by simp [hr])
    have hmode : a.access.mode = .write := by rw [heq]; rfl
    exact ⟨e, he, r, hmem, hf, by rw [hmode]; exact heq⟩
  · obtain ⟨e, he, r, hr, hf, heq⟩ := exists_read h ha
    have hmode : a.access.mode = .read := by rw [heq]; rfl
    exact ⟨e, he, r, hr, hf, by rw [hmode]; exact heq⟩

theorem mem_writes (h : (ofEquations eqs).run.value = .ok s) {t : Nat}
    {e : Equation × IterationSpace} (he : eqs[t]? = some e) {r : Reference}
    (hr : e.1.write? = some r) :
    .ofReference e.2 t e.1.isIncrement .write r ∈ s.writes.of r.function := by
  rw [(ofEquations_eq_ok h).2.1, AccessMap.of_ofList, List.mem_filter, List.mem_flatMap]
  refine ⟨⟨(e, t), List.mem_zipIdx_iff_getElem?.2 he, ?_⟩, by simp⟩
  unfold Equation.timedWrites
  rw [hr]
  exact List.mem_singleton_self _

theorem mem_reads (h : (ofEquations eqs).run.value = .ok s) {t : Nat}
    {e : Equation × IterationSpace} (he : eqs[t]? = some e) {r : Reference}
    (hr : r ∈ e.1.reads) :
    .ofReference e.2 t e.1.isIncrement .read r ∈ s.reads.of r.function := by
  rw [(ofEquations_eq_ok h).1, AccessMap.of_ofList, List.mem_filter, List.mem_flatMap]
  refine ⟨⟨(e, t), List.mem_zipIdx_iff_getElem?.2 he, ?_⟩, by simp⟩
  unfold Equation.timedReads
  exact List.mem_map_of_mem (List.mem_append_left _ hr)

theorem exists_entry (h : (ofEquations eqs).run.value = .ok s) {t : Nat}
    {e : Equation × IterationSpace} (he : eqs[t]? = some e) {r : Reference}
    (hr : r ∈ e.1.references) :
    ∃ mode, .ofReference e.2 t e.1.isIncrement mode r ∈ s.accesses r.function ∧
      (e.1.write? = some r → mode = .write) := by
  by_cases hw : e.1.write? = some r
  · exact ⟨.write, List.mem_append_left _ (mem_writes h he hw), fun _ => rfl⟩
  · have hread : r ∈ e.1.reads := by
      rcases List.mem_append.1 hr with hr | hr
      · exact absurd (Option.mem_toList.1 hr) hw
      · exact hr
    exact ⟨.read, List.mem_append_right _ (mem_reads h he hread), fun hwrite => absurd hwrite hw⟩

theorem pairwise_writes (h : (ofEquations eqs).run.value = .ok s) (f : GridFunction) :
    (s.writes.of f).Pairwise fun a b => a.timestamp < b.timestamp := by
  rw [(ofEquations_eq_ok h).2.1, AccessMap.of_ofList]
  apply List.Pairwise.filter
  rw [List.pairwise_flatMap]
  constructor
  · intro e _
    unfold Equation.timedWrites
    cases e.1.1.write? <;> simp
  · have hindices : (eqs.zipIdx.map Prod.snd).Pairwise (· < ·) := by
      rw [List.zipIdx_map_snd]
      exact List.pairwise_lt_range'
    apply (List.pairwise_map.1 hindices).imp
    intro d e hlt a ha b hb
    obtain ⟨_, -, rfl⟩ := Equation.exists_reference_of_mem_timedWrites ha
    obtain ⟨_, -, rfl⟩ := Equation.exists_reference_of_mem_timedWrites hb
    exact hlt

theorem mode_of_mem_writes (h : (ofEquations eqs).run.value = .ok s) (ha : a ∈ s.writes.of f) :
    a.access.mode = .write := by
  obtain ⟨e, r, -, -, -, heq⟩ := exists_write h ha
  rw [heq]
  rfl

theorem mode_of_mem_reads (h : (ofEquations eqs).run.value = .ok s) (ha : a ∈ s.reads.of f) :
    a.access.mode = .read := by
  obtain ⟨e, -, r, -, -, heq⟩ := exists_read h ha
  rw [heq]
  rfl

theorem mem_writes_of_mode (h : (ofEquations eqs).run.value = .ok s) (ha : a ∈ s.accesses f)
    (hmode : a.access.mode = .write) : a ∈ s.writes.of f := by
  rcases List.mem_append.1 ha with ha | ha
  · exact ha
  · rw [mode_of_mem_reads h ha] at hmode
    cases hmode

theorem mem_reads_of_mode (h : (ofEquations eqs).run.value = .ok s) (ha : a ∈ s.accesses f)
    (hmode : a.access.mode = .read) : a ∈ s.reads.of f := by
  rcases List.mem_append.1 ha with ha | ha
  · rw [mode_of_mem_writes h ha] at hmode
    cases hmode
  · exact ha

end Entries

section Tests

variable {a b : TimedAccess}

/--
What the three tests have in common: an access comes on one side of another one in the iteration, or
at the same point and `tie` decides. Accesses that cannot be compared pass.
-/
def comes (side : Ordering) (tie : Bool) (a b : TimedAccess) : Analysis Bool := do
  match ← a.compare? b with
  | none => return true
  | some o => if o = side then return true else return (← a.samePoint b) && tie

theorem isFlow_eq_comes :
    isFlow a b = comes .lt (decide (a.timestamp ≤ b.timestamp)) b a := by
  unfold isFlow comes
  apply bind_congr
  rintro (_ | _ | _ | _) <;> rfl

theorem isAnti_eq_comes :
    isAnti a b = comes .gt (decide (a.timestamp < b.timestamp)) a b := by
  unfold isAnti comes
  apply bind_congr
  rintro (_ | _ | _ | _) <;> rfl

theorem isOutput_eq_comes :
    isOutput a b = comes .gt (decide (b.timestamp < a.timestamp)) a b := by
  unfold isOutput comes
  apply bind_congr
  rintro (_ | _ | _ | _) <;> rfl

variable {side : Ordering} {tie : Bool}

theorem aligned_of_comes {t : Bool} (h : (comes side tie a b).run.value = .ok t) :
    a.Aligned b := by
  unfold comes at h
  rw [Analysis.value_bind_eq_ok] at h
  obtain ⟨o, ho, -⟩ := h
  exact (TimedAccess.compare?_eq_ok.1 ho).1

theorem comes_iff (h : a.Matched b) :
    (comes side tie a b).run.value = .ok true ↔
      a.order b = none ∨ a.order b = some side ∨ a.order b = some .eq ∧ tie = true := by
  unfold comes
  rw [Analysis.value_bind_of_ok h.value_compare?]
  cases ho : a.order b with
  | none => simp
  | some o =>
    dsimp only
    split
    · next heq => simp [heq]
    · next hne =>
      rw [Analysis.value_bind_of_ok h.value_samePoint]
      simp [ho, hne]

theorem isFlow_iff (h : a.Matched b) :
    (isFlow b a).run.value = .ok true ↔
      a.order b = none ∨ a.order b = some .lt ∨
        a.order b = some .eq ∧ b.timestamp ≤ a.timestamp := by
  rw [isFlow_eq_comes, comes_iff h, decide_eq_true_iff]

theorem isAnti_iff (h : a.Matched b) :
    (isAnti a b).run.value = .ok true ↔
      a.order b = none ∨ a.order b = some .gt ∨
        a.order b = some .eq ∧ a.timestamp < b.timestamp := by
  rw [isAnti_eq_comes, comes_iff h, decide_eq_true_iff]

theorem isOutput_iff (h : a.Matched b) :
    (isOutput a b).run.value = .ok true ↔
      a.order b = none ∨ a.order b = some .gt ∨
        a.order b = some .eq ∧ b.timestamp < a.timestamp := by
  rw [isOutput_eq_comes, comes_iff h, decide_eq_true_iff]

end Tests

def Depends (s : Scope) (kind : DependenceKind) (a b : TimedAccess) : Prop :=
  ∃ d ∈ s.dependences, d.kind = kind ∧ d.source = a ∧ d.sink = b

theorem exists_mem_gathered {kind : DependenceKind}
    {test : TimedAccess → TimedAccess → Analysis Bool} {ps : List (TimedAccess × TimedAccess)}
    {ds : List Dependence} {a b : TimedAccess} (h : (gather kind test ps).run.value = .ok ds) :
    (∃ d ∈ ds, d.source = a ∧ d.sink = b) ↔ (a, b) ∈ ps ∧ (test a b).run.value = .ok true := by
  have hmem : (∃ d ∈ ds, d.source = a ∧ d.sink = b) ↔ (a, b) ∈ ds.map ends := by
    simp only [List.mem_map, ends, Prod.mk.injEq]
  rw [hmem, (gather_eq_ok h).1, List.mem_filter]
  simp only [passes, decide_eq_true_eq]

namespace Gathered

variable {s : Scope} {a b : TimedAccess}

theorem mem_dependences_iff (h : Gathered s) {d : Dependence} {kind : DependenceKind} :
    d ∈ s.dependences ∧ d.kind = kind ↔
      match kind with
      | .flow => d ∈ s.flow
      | .anti => d ∈ s.anti
      | .output => d ∈ s.output := by
  have hflow : d ∈ s.flow → d.kind = .flow := kind_of_mem_gathered h.flow
  have hanti : d ∈ s.anti → d.kind = .anti := kind_of_mem_gathered h.anti
  have houtput : d ∈ s.output → d.kind = .output := kind_of_mem_gathered h.output
  unfold dependences
  rw [List.mem_append, List.mem_append]
  cases kind <;> grind

theorem depends_flow_iff (h : Gathered s) :
    s.Depends .flow a b ↔
      (∃ f, a ∈ s.writes.of f ∧ b ∈ s.reads.of f) ∧ (isFlow a b).run.value = .ok true := by
  rw [← mem_writeReadPairs, ← exists_mem_gathered h.flow]
  unfold Depends
  simp only [← and_assoc, h.mem_dependences_iff]

theorem depends_anti_iff (h : Gathered s) :
    s.Depends .anti a b ↔
      (∃ f, b ∈ s.writes.of f ∧ a ∈ s.reads.of f) ∧ (isAnti a b).run.value = .ok true := by
  have hswap : (a, b) ∈ (writeReadPairs s.reads s.writes).map Prod.swap ↔
      (b, a) ∈ writeReadPairs s.reads s.writes := by
    rw [List.mem_map_of_involutive Prod.swap_swap, Prod.swap_prod_mk]
  rw [← mem_writeReadPairs, ← hswap, ← exists_mem_gathered h.anti]
  unfold Depends
  simp only [← and_assoc, h.mem_dependences_iff]

theorem depends_output_iff (h : Gathered s) :
    s.Depends .output a b ↔
      (∃ f, a ∈ s.writes.of f ∧ b ∈ s.writes.of f) ∧ (isOutput a b).run.value = .ok true := by
  rw [← mem_writeWritePairs, ← exists_mem_gathered h.output]
  unfold Depends
  simp only [← and_assoc, h.mem_dependences_iff]

theorem between_eq (h : Gathered s) {d : Dependence} (hd : d ∈ s.dependences) :
    (Dependence.between d.kind d.source d.sink).run.value = .ok d := by
  unfold dependences at hd
  rw [List.mem_append, List.mem_append] at hd
  rcases hd with (hd | hd) | hd
  · rw [kind_of_mem_gathered h.flow hd]
    exact (gather_eq_ok h.flow).2.2 d hd
  · rw [kind_of_mem_gathered h.anti hd]
    exact (gather_eq_ok h.anti).2.2 d hd
  · rw [kind_of_mem_gathered h.output hd]
    exact (gather_eq_ok h.output).2.2 d hd

theorem distance_eq (h : Gathered s) {d : Dependence} (hd : d ∈ s.dependences) :
    (d.source.distance d.sink).run.value = .ok d.distance :=
  (between_eq_ok (h.between_eq hd)).2.2.2.1

theorem aligned_write_read (h : Gathered s) {f : GridFunction} (hw : a ∈ s.writes.of f)
    (hr : b ∈ s.reads.of f) : b.Aligned a := by
  obtain ⟨t, ht⟩ := (gather_eq_ok h.flow).2.1 (a, b) (mem_writeReadPairs.2 ⟨f, hw, hr⟩)
  rw [isFlow_eq_comes] at ht
  exact aligned_of_comes ht

theorem aligned_write_write (h : Gathered s) {f : GridFunction} (ha : a ∈ s.writes.of f)
    (hb : b ∈ s.writes.of f) : a.Aligned b := by
  obtain ⟨t, ht⟩ := (gather_eq_ok h.output).2.1 (a, b) (mem_writeWritePairs.2 ⟨f, ha, hb⟩)
  rw [isOutput_eq_comes] at ht
  exact aligned_of_comes ht

end Gathered

section Kinds

variable {eqs : List (Equation × IterationSpace)} {s : Scope} {f : GridFunction}
variable {kind : DependenceKind} {a b : TimedAccess}

theorem aligned_of_ofModes (h : (ofEquations eqs).run.value = .ok s) (ha : a ∈ s.accesses f)
    (hb : b ∈ s.accesses f)
    (hkind : DependenceKind.ofModes a.access.mode b.access.mode = some kind) : a.Aligned b := by
  obtain ⟨-, -, hs⟩ := ofEquations_eq_ok h
  cases hamode : a.access.mode with
  | write =>
    have ha := mem_writes_of_mode h ha hamode
    cases hbmode : b.access.mode with
    | write => exact hs.aligned_write_write ha (mem_writes_of_mode h hb hbmode)
    | read => exact (hs.aligned_write_read ha (mem_reads_of_mode h hb hbmode)).symm
  | read =>
    cases hbmode : b.access.mode with
    | write =>
      exact hs.aligned_write_read (mem_writes_of_mode h hb hbmode) (mem_reads_of_mode h ha hamode)
    | read =>
      rw [hamode, hbmode] at hkind
      cases hkind

theorem accesses_of_depends (h : (ofEquations eqs).run.value = .ok s) (hd : s.Depends kind a b) :
    ∃ f, a ∈ s.accesses f ∧ b ∈ s.accesses f ∧
      DependenceKind.ofModes a.access.mode b.access.mode = some kind := by
  obtain ⟨-, -, hs⟩ := ofEquations_eq_ok h
  cases kind with
  | flow =>
    obtain ⟨⟨f, ha, hb⟩, -⟩ := hs.depends_flow_iff.1 hd
    refine ⟨f, List.mem_append_left _ ha, List.mem_append_right _ hb, ?_⟩
    rw [mode_of_mem_writes h ha, mode_of_mem_reads h hb]
    rfl
  | anti =>
    obtain ⟨⟨f, hb, ha⟩, -⟩ := hs.depends_anti_iff.1 hd
    refine ⟨f, List.mem_append_right _ ha, List.mem_append_left _ hb, ?_⟩
    rw [mode_of_mem_writes h hb, mode_of_mem_reads h ha]
    rfl
  | output =>
    obtain ⟨⟨f, ha, hb⟩, -⟩ := hs.depends_output_iff.1 hd
    refine ⟨f, List.mem_append_left _ ha, List.mem_append_left _ hb, ?_⟩
    rw [mode_of_mem_writes h ha, mode_of_mem_writes h hb]
    rfl

theorem depends_of_order (h : (ofEquations eqs).run.value = .ok s) (ha : a ∈ s.accesses f)
    (hb : b ∈ s.accesses f)
    (hkind : DependenceKind.ofModes a.access.mode b.access.mode = some kind)
    (hmatched : a.Matched b)
    (horder : a.order b = none ∨ a.order b = some .gt) : s.Depends kind a b := by
  obtain ⟨-, -, hs⟩ := ofEquations_eq_ok h
  cases hamode : a.access.mode with
  | write =>
    have ha := mem_writes_of_mode h ha hamode
    cases hbmode : b.access.mode with
    | write =>
      rw [hamode, hbmode] at hkind
      obtain rfl := Option.some.inj hkind
      rw [hs.depends_output_iff, isOutput_iff hmatched]
      exact ⟨⟨f, ha, mem_writes_of_mode h hb hbmode⟩, horder.imp_right .inl⟩
    | read =>
      rw [hamode, hbmode] at hkind
      obtain rfl := Option.some.inj hkind
      have hswap : b.order a = none ∨ b.order a = some .lt := by
        rw [hmatched.order_swap]
        rcases horder with horder | horder
        · exact .inl (by rw [horder]; rfl)
        · exact .inr (by rw [horder]; rfl)
      rw [hs.depends_flow_iff, isFlow_iff hmatched.symm]
      exact ⟨⟨f, ha, mem_reads_of_mode h hb hbmode⟩, hswap.imp_right .inl⟩
  | read =>
    cases hbmode : b.access.mode with
    | write =>
      rw [hamode, hbmode] at hkind
      obtain rfl := Option.some.inj hkind
      rw [hs.depends_anti_iff, isAnti_iff hmatched]
      exact ⟨⟨f, mem_writes_of_mode h hb hbmode, mem_reads_of_mode h ha hamode⟩,
        horder.imp_right .inl⟩
    | read =>
      rw [hamode, hbmode] at hkind
      cases hkind

theorem depends_of_order_eq_gt (h : (ofEquations eqs).run.value = .ok s) (ha : a ∈ s.accesses f)
    (hb : b ∈ s.accesses f)
    (hkind : DependenceKind.ofModes a.access.mode b.access.mode = some kind)
    (hmatched : a.Matched b)
    (horder : a.order b = some .gt) : s.Depends kind a b :=
  depends_of_order h ha hb hkind hmatched (.inr horder)

theorem order_ne_lt_of_depends (hs : Gathered s) (hd : s.Depends kind a b)
    (hmatched : a.Matched b) : a.order b ≠ some .lt := by
  cases kind with
  | flow =>
    have htest := (hs.depends_flow_iff.1 hd).2
    rw [isFlow_iff hmatched.symm, hmatched.order_swap] at htest
    intro hlt
    simp [hlt] at htest
  | anti =>
    have htest := (hs.depends_anti_iff.1 hd).2
    rw [isAnti_iff hmatched] at htest
    intro hlt
    simp [hlt] at htest
  | output =>
    have htest := (hs.depends_output_iff.1 hd).2
    rw [isOutput_iff hmatched] at htest
    intro hlt
    simp [hlt] at htest

end Kinds

end Scope

end Stencil
