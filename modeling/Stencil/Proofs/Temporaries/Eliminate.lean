import Stencil.Proofs.Expr.References
import Stencil.Proofs.OrdMap
import Stencil.Temporaries.Eliminate

/-!
This module contains what the rounds of the elimination of common subexpressions keep. A round makes
no new array elements: temporaries stand for operations that were there before.
-/

namespace Stencil

def Equation.AllReferences (P : Reference → Prop) (eq : Equation) : Prop :=
  ∀ r ∈ eq.lhs.references ++ eq.rhs.references, P r

theorem Equation.mem_of_mem_references {eq : Equation} {r : Reference} (hr : r ∈ eq.references) :
    r ∈ eq.lhs.references ++ eq.rhs.references := by
  unfold references reads write? at hr
  rw [List.mem_append]
  cases hlhs : eq.lhs with
  | access f is =>
    simp only [hlhs, Expr.toReference?, Option.toList_some, List.mem_append,
      List.mem_singleton] at hr
    rcases hr with rfl | hr | hr
    · exact .inl (List.mem_cons_self ..)
    · exact .inr hr
    · exact .inl (List.mem_cons_of_mem _ hr)
  | _ =>
    right
    simpa [hlhs, Expr.toReference?] using hr

theorem Expr.getD_find?_occurrences (es : List Expr) (e : Expr) :
    ((occurrences es).find? e).getD 0 = es.count e := by
  have hfold (counts : OrdMap Expr Nat) :
      ((es.foldl (fun counts e => counts.alter e fun n => n.getD 0 + 1) counts).find? e).getD 0 =
        (counts.find? e).getD 0 + es.count e := by
    induction es generalizing counts with
    | nil => rfl
    | cons e' es ih =>
      rw [List.foldl_cons, ih, OrdMap.find?_alter, List.count_cons]
      by_cases he : e' = e
      · simp [he]
        omega
      · simp [he]
  unfold occurrences
  simpa using hfold .empty

theorem foldl_max_le_iff {ns : List Nat} {m b : Nat} :
    ns.foldl max m ≤ b ↔ m ≤ b ∧ ∀ n ∈ ns, n ≤ b := by
  induction ns generalizing m with
  | nil => simp
  | cons n ns ih =>
    rw [List.foldl_cons, ih, List.forall_mem_cons, Nat.max_le, and_assoc]

namespace Temporaries

variable {P : Reference → Prop}

theorem value_replaceIn (σ : Expr → Option Expr) (eq : Equation) :
    (replaceIn σ eq).value =
      ⟨(eq.lhs.replace σ).value, (eq.rhs.replace σ).value, eq.isIncrement⟩ := rfl

theorem allReferences_replaceIn {σ : Expr → Option Expr} {eq : Equation}
    (hσ : ∀ a b, σ a = some b → ∀ r ∈ b.references, P r) (h : eq.AllReferences P) :
    (replaceIn σ eq).value.AllReferences P := by
  have hside {e : Expr} (he : ∀ r ∈ e.references, P r) :
      ∀ r ∈ (e.replace σ).value.references, P r := by
    intro r hr
    rcases Expr.mem_references_replace hr with hr | ⟨a, b, -, hab, hr⟩
    · exact he r hr
    · exact hσ a b hab r hr
  unfold Equation.AllReferences at h ⊢
  rw [List.forall_mem_append] at h ⊢
  exact ⟨hside h.1, hside h.2⟩

namespace State

def next (make : Nat → Expr) (s : State) : State :=
  let bindings := s.bind make s.targets
  let replaced := (s.replace (OrdMap.ofList bindings).find?).value
  ⟨(bindings.reverse.map fun b => ⟨b.2, b.1, false⟩) ++ replaced.temporaries, replaced.program⟩

theorem eliminate_induct {make : Nat → Expr} {motive : State → Prop}
    (step : ∀ s, s.targets ≠ [] → motive s → motive (s.next make)) (fuel : Nat) {s : State}
    (hs : motive s) : motive (s.eliminate make fuel).value := by
  induction fuel generalizing s with
  | zero => exact hs
  | succ fuel ih =>
    rw [State.eliminate]
    split
    · exact hs
    · next hne =>
      rw [Checked.value_bind]
      split
      · exact hs
      · exact ih (step s hne hs)

theorem mem_targets {s : State} {e : Expr} :
    e ∈ s.targets ↔ 1 < s.operations.count e ∧
      ∀ e', 1 < s.operations.count e' → e'.cost ≤ e.cost := by
  have hrepeated (e : Expr) :
      e ∈ ((Expr.occurrences s.operations).filter fun _ n => decide (1 < n)).keys ↔
        1 < s.operations.count e := by
    have hcount := Expr.getD_find?_occurrences s.operations e
    rw [OrdMap.mem_keys, OrdMap.find?_filter, ← hcount]
    cases (Expr.occurrences s.operations).find? e with
    | none => simp
    | some n => simp [Option.filter_eq_some_iff]
  have hmost (b : Nat) :
      (((Expr.occurrences s.operations).filter fun _ n => decide (1 < n)).keys.map
        Expr.cost).foldl max 0 ≤ b ↔ ∀ e, 1 < s.operations.count e → e.cost ≤ b := by
    rw [foldl_max_le_iff]
    simp [hrepeated]
  unfold targets
  rw [List.mem_filter, hrepeated, beq_iff_eq]
  apply and_congr_right
  intro he
  rw [← hmost]
  constructor
  · exact fun heq => heq.ge
  · exact fun hle => le_antisymm ((hmost _).1 le_rfl e he) hle

theorem exists_target_of_mem_bind {make : Nat → Expr} {s : State} {b : Expr × Expr}
    (hb : b ∈ s.bind make s.targets) : b.1 ∈ s.targets ∧ ∃ i, b.2 = make i := by
  unfold bind at hb
  obtain ⟨⟨e, i⟩, he, rfl⟩ := List.mem_map.1 hb
  exact ⟨List.fst_mem_of_mem_zipIdx he, _, rfl⟩

theorem mem_equations_next {make : Nat → Expr} {s : State} {eq : Equation} :
    eq ∈ (s.next make).equations ↔
      (∃ b ∈ s.bind make s.targets, eq = ⟨b.2, b.1, false⟩) ∨
        ∃ eq' ∈ s.equations,
          eq = (replaceIn (OrdMap.ofList (s.bind make s.targets)).find? eq').value := by
  unfold next equations replace
  simp only [Checked.value_bind, Checked.value_pure, Checked.value_mapM, List.mem_append,
    List.mem_map, List.mem_reverse, or_assoc]
  constructor
  · rintro (⟨b, hb, rfl⟩ | ⟨eq', heq', rfl⟩ | ⟨eq', heq', rfl⟩)
    · exact .inl ⟨b, hb, rfl⟩
    · exact .inr ⟨eq', .inl heq', rfl⟩
    · exact .inr ⟨eq', .inr heq', rfl⟩
  · rintro (⟨b, hb, rfl⟩ | ⟨eq', heq' | heq', rfl⟩)
    · exact .inl ⟨b, hb, rfl⟩
    · exact .inr (.inl ⟨eq', heq', rfl⟩)
    · exact .inr (.inr ⟨eq', heq', rfl⟩)

theorem allReferences_next {make : Nat → Expr} (hmake : ∀ i, (make i).references = [])
    {s : State} (h : ∀ eq ∈ s.equations, eq.AllReferences P) :
    ∀ eq ∈ (s.next make).equations, eq.AllReferences P := by
  have hσ : ∀ a b, (OrdMap.ofList (s.bind make s.targets)).find? a = some b →
      ∀ r ∈ b.references, P r := by
    intro a b hab r hr
    obtain ⟨-, i, hi⟩ := exists_target_of_mem_bind (OrdMap.mem_of_find?_ofList hab)
    have hb : b = make i := hi
    rw [hb, hmake] at hr
    cases hr
  have htarget : ∀ e ∈ s.targets, ∀ r ∈ e.references, P r := by
    intro e he r hr
    have hoccurs : e ∈ s.operations := List.count_pos_iff.1 (by have := (mem_targets.1 he).1; omega)
    obtain ⟨eq, heq, ho⟩ := List.mem_flatMap.1 hoccurs
    exact h eq heq r (List.mem_append_right _ ((Expr.mem_operations.1 ho).2.mem_references hr))
  intro eq heq
  rcases mem_equations_next.1 heq with ⟨b, hb, rfl⟩ | ⟨eq', heq', rfl⟩
  · obtain ⟨hb, i, hi⟩ := exists_target_of_mem_bind hb
    unfold Equation.AllReferences
    rw [hi, hmake]
    exact htarget b.1 hb
  · exact allReferences_replaceIn hσ (h eq' heq')

theorem allReferences_renumber {s : State} (h : ∀ eq ∈ s.equations, eq.AllReferences P) :
    ∀ eq ∈ s.renumber.value, eq.AllReferences P := by
  unfold renumber
  rw [Checked.value_mapM]
  intro eq heq
  obtain ⟨eq', heq', rfl⟩ := List.mem_map.1 heq
  apply allReferences_replaceIn _ (h eq' heq')
  intro a b hab r hr
  have hb := (List.of_mem_zip (OrdMap.mem_of_find?_ofList hab)).2
  rw [List.mem_reverse] at hb
  obtain ⟨t, ht, rfl⟩ := List.mem_map.1 hb
  exact h t (List.mem_append_left _ ht) r (List.mem_append_left _ hr)

end State

theorem allReferences_eliminate {make : Nat → Expr} (hmake : ∀ i, (make i).references = [])
    {eqs : List Equation} (h : ∀ eq ∈ eqs, eq.AllReferences P) :
    ∀ eq ∈ (eliminate make eqs).value, eq.AllReferences P := by
  unfold eliminate
  rw [Checked.value_bind]
  apply State.allReferences_renumber
  apply State.eliminate_induct (motive := fun s => ∀ eq ∈ s.equations, eq.AllReferences P)
  · intro s _ hs
    exact State.allReferences_next hmake hs
  · exact h

end Temporaries

end Stencil
