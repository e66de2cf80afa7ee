import Mathlib.Order.Monotone.Basic
import Stencil.Proofs.Scope.Total

/-!
This module contains scopes of parts of a program. Timestamps only matter for the order of accesses,
so the scope of a part has the dependences that the program has between the equations of the part.
-/

namespace Stencil

namespace Dependence

def link (kind : DependenceKind) (a b : TimedAccess) : Dependence where
  source := a
  sink := b
  kind := kind
  distance := TimedAccess.offsets a.directions a.indices b.indices
  cause := firstCause a.dimensions (TimedAccess.offsets a.directions a.indices b.indices)
  isIndirect :=
    (firstCause a.dimensions (TimedAccess.offsets a.directions a.indices b.indices)).elim false
      fun d => (isIrregularAlong a b d).value

theorem between_eq_ok_iff {kind : DependenceKind} {a b : TimedAccess} {d : Dependence} :
    (between kind a b).run.value = .ok d ↔ a.Aligned b ∧ d = link kind a b := by
  have hlink (h : a.Aligned b) : (between kind a b).run.value = .ok (link kind a b) := by
    unfold between link
    rw [Analysis.value_bind_of_ok (TimedAccess.distance_eq_ok.2 ⟨h, rfl⟩)]
    dsimp only
    split
    · next cause hcause => rw [hcause]; rfl
    · next hcause => rw [hcause]; rfl
  constructor
  · intro h
    have haligned := (TimedAccess.distance_eq_ok.1 (Scope.between_eq_ok h).2.2.2.1).1
    rw [hlink haligned] at h
    exact ⟨haligned, (Except.ok.inj h).symm⟩
  · rintro ⟨haligned, rfl⟩
    exact hlink haligned

end Dependence

def TimedAccess.retimed (φ : Nat → Nat) (a : TimedAccess) : TimedAccess :=
  { a with timestamp := φ a.timestamp }

def Dependence.retimed (φ : Nat → Nat) (d : Dependence) : Dependence :=
  { d with source := d.source.retimed φ, sink := d.sink.retimed φ }

theorem Equation.retimed_mem_timedReads {eq : Equation} {space : IterationSpace} {t : Nat}
    {a : TimedAccess} (φ : Nat → Nat) (h : a ∈ eq.timedReads space t) :
    a.retimed φ ∈ eq.timedReads space (φ t) := by
  unfold timedReads at h ⊢
  obtain ⟨r, hr, rfl⟩ := List.mem_map.1 h
  exact List.mem_map_of_mem hr

theorem Equation.retimed_mem_timedWrites {eq : Equation} {space : IterationSpace} {t : Nat}
    {a : TimedAccess} (φ : Nat → Nat) (h : a ∈ eq.timedWrites space t) :
    a.retimed φ ∈ eq.timedWrites space (φ t) := by
  unfold timedWrites at h ⊢
  obtain ⟨r, hr, rfl⟩ := List.mem_map.1 h
  exact List.mem_map_of_mem hr

namespace Scope

section Entries

variable {eqs : List (Equation × IterationSpace)} {s : Scope} {f : GridFunction} {a : TimedAccess}

theorem mem_reads_iff (h : (ofEquations eqs).run.value = .ok s) :
    a ∈ s.reads.of f ↔ a.function = f ∧
      ∃ e, eqs[a.timestamp]? = some e ∧ a ∈ e.1.timedReads e.2 a.timestamp := by
  rw [(ofEquations_eq_ok h).1, AccessMap.of_ofList, List.mem_filter, List.mem_flatMap,
    decide_eq_true_eq, and_comm]
  apply and_congr_right
  intro _
  constructor
  · rintro ⟨⟨e, t⟩, he, ha⟩
    obtain ⟨_, -, rfl⟩ := Equation.exists_reference_of_mem_timedReads ha
    exact ⟨e, List.mem_zipIdx_iff_getElem?.1 he, ha⟩
  · rintro ⟨e, he, ha⟩
    exact ⟨(e, a.timestamp), List.mem_zipIdx_iff_getElem?.2 he, ha⟩

theorem mem_writes_iff (h : (ofEquations eqs).run.value = .ok s) :
    a ∈ s.writes.of f ↔ a.function = f ∧
      ∃ e, eqs[a.timestamp]? = some e ∧ a ∈ e.1.timedWrites e.2 a.timestamp := by
  rw [(ofEquations_eq_ok h).2.1, AccessMap.of_ofList, List.mem_filter, List.mem_flatMap,
    decide_eq_true_eq, and_comm]
  apply and_congr_right
  intro _
  constructor
  · rintro ⟨⟨e, t⟩, he, ha⟩
    obtain ⟨_, -, rfl⟩ := Equation.exists_reference_of_mem_timedWrites ha
    exact ⟨e, List.mem_zipIdx_iff_getElem?.1 he, ha⟩
  · rintro ⟨e, he, ha⟩
    exact ⟨(e, a.timestamp), List.mem_zipIdx_iff_getElem?.2 he, ha⟩

end Entries

section Subset

variable {part eqs : List (Equation × IterationSpace)} {s : Scope}

theorem aligned_of_mem (h : (ofEquations eqs).run.value = .ok s)
    {e e' : Equation × IterationSpace} (he : e ∈ eqs) (he' : e' ∈ eqs) {w r : Reference}
    (hw : e.1.write? = some w) (hr : r ∈ e'.1.references) (hf : w.function = r.function)
    {t t' : Nat} {i i' : Bool} {m m' : AccessMode} :
    (TimedAccess.ofReference e.2 t i m w).Aligned (.ofReference e'.2 t' i' m' r) := by
  obtain ⟨u, hu⟩ := List.mem_iff_getElem?.1 he
  obtain ⟨u', hu'⟩ := List.mem_iff_getElem?.1 he'
  have hwrite := List.mem_append_left (s.reads.of w.function) (mem_writes h hu hw)
  obtain ⟨mode, hentry, -⟩ := exists_entry h hu' hr
  rw [← hf] at hentry
  have hkind : ∃ kind, DependenceKind.ofModes .write mode = some kind := by
    cases mode <;> exact ⟨_, rfl⟩
  obtain ⟨kind, hkind⟩ := hkind
  have haligned := aligned_of_ofModes h hwrite hentry hkind
  exact ⟨haligned.dimensions, haligned.directions, haligned.rank⟩

theorem exists_ofEquations_of_subset (h : (ofEquations eqs).run.value = .ok s)
    (hpart : ∀ e ∈ part, e ∈ eqs) : ∃ s, (ofEquations part).run.value = .ok s := by
  have hmem {t : Nat} {e : Equation × IterationSpace} (he : part[t]? = some e) : e ∈ eqs :=
    hpart e (List.mem_of_getElem? he)
  apply exists_ofAccesses
  · intro f a ha b hb
    obtain ⟨e, w, he, hw, hwf, heq⟩ := exists_timedWrite ha
    obtain ⟨e', he', r, hr, hrf, heq'⟩ := exists_timedRead hb
    rw [heq, heq']
    exact aligned_of_mem h (hmem he) (hmem he') hw hr (hwf.trans hrf.symm)
  · intro f a ha b hb
    obtain ⟨e, w, he, hw, hwf, heq⟩ := exists_timedWrite ha
    obtain ⟨e', w', he', hw', hwf', heq'⟩ := exists_timedWrite hb
    rw [heq, heq']
    exact aligned_of_mem h (hmem he) (hmem he') hw (List.mem_append_left _ (by simp [hw']))
      (hwf.trans hwf'.symm)

end Subset

structure Embeds (φ : Nat → Nat) (part eqs : List (Equation × IterationSpace)) : Prop where
  strictMono : StrictMono φ
  getElem?_eq : ∀ t e, part[t]? = some e → eqs[φ t]? = some e

namespace Embeds

variable {φ : Nat → Nat} {part eqs : List (Equation × IterationSpace)} {s s' : Scope}
variable {f : GridFunction} {a b : TimedAccess}

theorem mem (h : Embeds φ part eqs) : ∀ e ∈ part, e ∈ eqs := by
  intro e he
  obtain ⟨t, ht⟩ := List.mem_iff_getElem?.1 he
  exact List.mem_of_getElem? (h.getElem?_eq t e ht)

theorem isFlow_retimed (h : Embeds φ part eqs) (a b : TimedAccess) :
    isFlow (a.retimed φ) (b.retimed φ) = isFlow a b := by
  have htie : decide (φ a.timestamp ≤ φ b.timestamp) = decide (a.timestamp ≤ b.timestamp) :=
    decide_eq_decide.2 h.strictMono.le_iff_le
  rw [isFlow_eq_comes, isFlow_eq_comes]
  exact congrArg (comes .lt · b a) htie

theorem isAnti_retimed (h : Embeds φ part eqs) (a b : TimedAccess) :
    isAnti (a.retimed φ) (b.retimed φ) = isAnti a b := by
  have htie : decide (φ a.timestamp < φ b.timestamp) = decide (a.timestamp < b.timestamp) :=
    decide_eq_decide.2 h.strictMono.lt_iff_lt
  rw [isAnti_eq_comes, isAnti_eq_comes]
  exact congrArg (comes .gt · a b) htie

theorem isOutput_retimed (h : Embeds φ part eqs) (a b : TimedAccess) :
    isOutput (a.retimed φ) (b.retimed φ) = isOutput a b := by
  have htie : decide (φ b.timestamp < φ a.timestamp) = decide (b.timestamp < a.timestamp) :=
    decide_eq_decide.2 h.strictMono.lt_iff_lt
  rw [isOutput_eq_comes, isOutput_eq_comes]
  exact congrArg (comes .gt · a b) htie

section Ok

variable (h : Embeds φ part eqs) (hs : (ofEquations part).run.value = .ok s)
variable (hs' : (ofEquations eqs).run.value = .ok s')
include h hs hs'

theorem retimed_mem_reads (ha : a ∈ s.reads.of f) : a.retimed φ ∈ s'.reads.of f := by
  rw [mem_reads_iff hs] at ha
  obtain ⟨hf, e, he, ha⟩ := ha
  rw [mem_reads_iff hs']
  exact ⟨hf, e, h.getElem?_eq _ e he, Equation.retimed_mem_timedReads φ ha⟩

theorem retimed_mem_writes (ha : a ∈ s.writes.of f) : a.retimed φ ∈ s'.writes.of f := by
  rw [mem_writes_iff hs] at ha
  obtain ⟨hf, e, he, ha⟩ := ha
  rw [mem_writes_iff hs']
  exact ⟨hf, e, h.getElem?_eq _ e he, Equation.retimed_mem_timedWrites φ ha⟩

theorem depends_retimed {kind : DependenceKind} (hd : s.Depends kind a b) :
    s'.Depends kind (a.retimed φ) (b.retimed φ) := by
  obtain ⟨-, -, hgathered⟩ := ofEquations_eq_ok hs
  obtain ⟨-, -, hgathered'⟩ := ofEquations_eq_ok hs'
  cases kind with
  | flow =>
    obtain ⟨⟨f, ha, hb⟩, htest⟩ := hgathered.depends_flow_iff.1 hd
    rw [hgathered'.depends_flow_iff, h.isFlow_retimed]
    exact ⟨⟨f, h.retimed_mem_writes hs hs' ha, h.retimed_mem_reads hs hs' hb⟩, htest⟩
  | anti =>
    obtain ⟨⟨f, hb, ha⟩, htest⟩ := hgathered.depends_anti_iff.1 hd
    rw [hgathered'.depends_anti_iff, h.isAnti_retimed]
    exact ⟨⟨f, h.retimed_mem_writes hs hs' hb, h.retimed_mem_reads hs hs' ha⟩, htest⟩
  | output =>
    obtain ⟨⟨f, ha, hb⟩, htest⟩ := hgathered.depends_output_iff.1 hd
    rw [hgathered'.depends_output_iff, h.isOutput_retimed]
    exact ⟨⟨f, h.retimed_mem_writes hs hs' ha, h.retimed_mem_writes hs hs' hb⟩, htest⟩

theorem retimed_mem_dependences {d : Dependence} (hd : d ∈ s.dependences) :
    d.retimed φ ∈ s'.dependences := by
  obtain ⟨-, -, hgathered⟩ := ofEquations_eq_ok hs
  obtain ⟨-, -, hgathered'⟩ := ofEquations_eq_ok hs'
  obtain ⟨d', hd', hkind, hsource, hsink⟩ := h.depends_retimed hs hs' ⟨d, hd, rfl, rfl, rfl⟩
  -- Both are determined by their kind and by the accesses that they link.
  have hlink := (Dependence.between_eq_ok_iff.1 (hgathered.between_eq hd)).2
  have hlink' := (Dependence.between_eq_ok_iff.1 (hgathered'.between_eq hd')).2
  rw [hkind, hsource, hsink] at hlink'
  have heq : d.retimed φ = d' := by
    rw [hlink', hlink]
    rfl
  rw [heq]
  exact hd'

theorem retimed_mem_flow {d : Dependence} (hd : d ∈ s.flow) : d.retimed φ ∈ s'.flow := by
  obtain ⟨-, -, hgathered⟩ := ofEquations_eq_ok hs
  obtain ⟨-, -, hgathered'⟩ := ofEquations_eq_ok hs'
  have hkind : d ∈ s.dependences ∧ d.kind = .flow := hgathered.mem_dependences_iff.2 hd
  have hkind' : d.retimed φ ∈ s'.dependences ∧ (d.retimed φ).kind = .flow :=
    ⟨h.retimed_mem_dependences hs hs' hkind.1, hkind.2⟩
  exact hgathered'.mem_dependences_iff.1 hkind'

theorem retimed_mem_anti {d : Dependence} (hd : d ∈ s.anti) : d.retimed φ ∈ s'.anti := by
  obtain ⟨-, -, hgathered⟩ := ofEquations_eq_ok hs
  obtain ⟨-, -, hgathered'⟩ := ofEquations_eq_ok hs'
  have hkind : d ∈ s.dependences ∧ d.kind = .anti := hgathered.mem_dependences_iff.2 hd
  have hkind' : d.retimed φ ∈ s'.dependences ∧ (d.retimed φ).kind = .anti :=
    ⟨h.retimed_mem_dependences hs hs' hkind.1, hkind.2⟩
  exact hgathered'.mem_dependences_iff.1 hkind'

end Ok

end Embeds

end Scope

end Stencil
