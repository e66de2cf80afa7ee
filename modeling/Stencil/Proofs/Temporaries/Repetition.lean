import Mathlib.Data.Finset.Max
import Mathlib.Logic.Relation
import Stencil.Proofs.Temporaries.Range

/-!
This module contains the end of the elimination of common subexpressions. Each round leaves fewer
operations repeated, so that the rounds end when none is, and before they are used up. Then every
operation occurs once.
-/

namespace Stencil

namespace Temporaries

namespace State

def repetitions (s : State) : Finset Expr :=
  s.operations.toFinset.filter fun o => 1 < s.operations.count o

theorem mem_repetitions {s : State} {o : Expr} :
    o ∈ s.repetitions ↔ 1 < s.operations.count o := by
  rw [repetitions, Finset.mem_filter, List.mem_toFinset, and_iff_right_iff_imp]
  intro ho
  exact List.count_pos_iff.1 (Nat.zero_lt_of_lt ho)

theorem card_repetitions_le (s : State) : s.repetitions.card ≤ s.operations.length :=
  (Finset.card_filter_le _ _).trans (List.toFinset_card_le _)

theorem targets_eq_nil_iff {s : State} : s.targets = [] ↔ s.repetitions = ∅ := by
  rw [List.eq_nil_iff_forall_not_mem, Finset.eq_empty_iff_forall_notMem]
  constructor
  · intro hnone o ho
    obtain ⟨most, hmost, hmax⟩ := s.repetitions.exists_max_image Expr.cost ⟨o, ho⟩
    apply hnone most
    rw [mem_targets]
    exact ⟨mem_repetitions.1 hmost, fun o' ho' => hmax o' (mem_repetitions.2 ho')⟩
  · intro hempty o ho
    exact hempty o (mem_repetitions.2 (mem_targets.1 ho).1)

end State

def Round (make : Nat → Expr) (s t : State) : Prop :=
  s.targets ≠ [] ∧ (s.replace (OrdMap.ofList (s.bind make s.targets)).find?).value ≠ s ∧
    t = s.next make

theorem State.eliminate_of_nil {s : State} (h : s.targets = []) (make : Nat → Expr) (fuel : Nat) :
    s.eliminate make fuel = pure s := by
  cases fuel with
  | zero => rfl
  | succ fuel =>
    rw [State.eliminate]
    split
    · rfl
    · next hne => exact absurd h hne

theorem Round.value_eliminate {make : Nat → Expr} {s t : State} (h : Round make s t) (fuel : Nat) :
    (s.eliminate make (fuel + 1)).value = (t.eliminate make fuel).value := by
  obtain ⟨hne, hprogress, rfl⟩ := h
  rw [State.eliminate]
  split
  · next hnil => exact absurd hnil hne
  · rw [Checked.value_bind, if_neg hprogress]
    rfl

variable {name : Nat → String}

namespace State.Regular

variable {s : State}

theorem card_repetitions_lt (h : s.Regular name) (hname : Function.Injective name)
    (htargets : s.targets ≠ []) :
    (s.next fun i => .sym (name i)).repetitions.card < s.repetitions.card := by
  apply Finset.card_lt_card
  rw [Finset.ssubset_iff_of_subset]
  · obtain ⟨o, ho⟩ := List.exists_mem_of_ne_nil _ htargets
    refine ⟨o, mem_repetitions.2 (mem_targets.1 ho).1, fun hnext => ?_⟩
    exact (h.repeated_of_next hname (mem_repetitions.1 hnext)).2 ho
  · intro o ho
    rw [mem_repetitions] at ho ⊢
    exact (h.repeated_of_next hname ho).1

theorem replace_ne (h : s.Regular name) (htargets : s.targets ≠ []) :
    (s.replace (s.names name)).value ≠ s := by
  intro hsame
  obtain ⟨o, ho⟩ := List.exists_mem_of_ne_nil _ htargets
  have hmem := mem_operations_of_mem_targets ho
  obtain ⟨os, hsub, hnone, hperm⟩ := exists_operations_map s.naming_names h.canonical
  have hequations : (s.equations.map fun eq => (replaceIn (s.names name) eq).value) =
      s.equations := by
    conv_rhs => rw [← hsame]
    simp [State.replace, equations]
  rw [hequations] at hperm
  obtain ⟨o₀, ho₀, heq⟩ := List.mem_map.1 (hperm.mem_iff.1 hmem)
  have hself := h.replace_names_eq_self (hsub.subset ho₀) (by
    rw [heq]
    exact fun i hi => h.fresh_of_mem_operations hmem hi)
  obtain ⟨j, hj⟩ := List.mem_iff_getElem?.1 ho
  have hsome : s.names name o = some _ := names_eq_some.2 ⟨j, hj, rfl⟩
  rw [← heq, hself, hnone o₀ ho₀] at hsome
  cases hsome

end State.Regular

theorem Unrolled.exhausts {eqs : List Equation} (h : Admissible name eqs) (fuel : Nat) {s : State}
    {bs : List (Expr × Expr)} (hs : Unrolled name eqs bs s) (hfuel : s.repetitions.card ≤ fuel) :
    let t := (s.eliminate (fun i => .sym (name i)) fuel).value
    Relation.ReflTransGen (Round fun i => .sym (name i)) s t ∧ t.targets = [] := by
  induction fuel generalizing s bs with
  | zero =>
    have hnil : s.targets = [] := by
      rw [State.targets_eq_nil_iff]
      exact Finset.card_eq_zero.1 (Nat.le_zero.1 hfuel)
    exact ⟨.refl, hnil⟩
  | succ fuel ih =>
    by_cases hnil : s.targets = []
    · rw [State.eliminate_of_nil hnil]
      exact ⟨.refl, hnil⟩
    · have hregular := hs.regular h
      have hround : Round (fun i => .sym (name i)) s (s.next fun i => .sym (name i)) :=
        ⟨hnil, hregular.replace_ne hnil, rfl⟩
      have hlt := hregular.card_repetitions_lt h.injective hnil
      rw [hround.value_eliminate fuel]
      obtain ⟨hrounds, hend⟩ := ih (hs.next h) (by omega)
      exact ⟨.head hround hrounds, hend⟩

namespace State.Numbered

variable {s : State}

theorem replace_swaps_inj (h : s.Numbered name) (hname : Function.Injective name) {a b : Expr}
    (ha : a.Canonical) (hb : b.Canonical)
    (heq : (a.replace s.swaps).value = (b.replace s.swaps).value) : a = b := by
  have hrestore {e : Expr} (he : e.Canonical) :
      ((e.replace s.swaps).value.replace s.swaps).value = e := by
    apply (h.naming_swaps hname).replace_restore _ _ he
    · exact fun x _ hnone => hnone
    · intro a b hab
      obtain ⟨i, j, hij, rfl, rfl⟩ := (h.swaps_eq_some hname).1 hab
      exact (h.swaps_eq_some hname).2 ⟨j, i, by omega, rfl, rfl⟩
    · intro a b hab
      obtain ⟨i, j, -, rfl, -⟩ := (h.swaps_eq_some hname).1 hab
      exact ⟨_, rfl⟩
  rw [← hrestore ha, heq, hrestore hb]

theorem count_operations_renumber (h : s.Numbered name) (hname : Function.Injective name)
    (hcanonical : ∀ eq ∈ s.equations, eq.rhs.Canonical)
    (honce : ∀ o, s.operations.count o ≤ 1) (o : Expr) :
    (s.renumber.value.flatMap fun eq => eq.rhs.operations).count o ≤ 1 := by
  obtain ⟨os, hsub, -, hperm⟩ := exists_operations_map (h.naming_swaps hname) hcanonical
  have hvalue : s.renumber.value = s.equations.map fun eq => (replaceIn s.swaps eq).value := by
    rw [renumber, Checked.value_mapM]
    rfl
  rw [hvalue, hperm.count_eq]
  by_cases ho : o ∈ os.map fun o => (o.replace s.swaps).value
  · have hmem {o : Expr} (ho : o ∈ os) : o.Canonical := by
      obtain ⟨-, eq, heq, hwithin⟩ := exists_within_of_mem_operations (hsub.subset ho)
      exact (hcanonical eq heq).of_within hwithin
    obtain ⟨o₀, ho₀, rfl⟩ := List.mem_map.1 ho
    rw [count_map_of_injOn fun o ho heq => h.replace_swaps_inj hname (hmem ho) (hmem ho₀) heq]
    exact (hsub.count_le o₀).trans (honce o₀)
  · rw [List.count_eq_zero.2 ho]
    omega

end State.Numbered

/--
The rounds of the elimination go on, each one with progress, until no operation can be taken any
more. In the end every operation occurs once only in all right-hand sides together.
-/
theorem eliminate_exhausts {eqs : List Equation} (h : Admissible name eqs) :
    (∃ s : State, Relation.ReflTransGen (Round fun i => .sym (name i)) ⟨[], eqs⟩ s ∧
      s.targets = [] ∧ (eliminate (fun i => .sym (name i)) eqs).value = s.renumber.value) ∧
    (∀ o, ((eliminate (fun i => .sym (name i)) eqs).value.flatMap
      fun eq => eq.rhs.operations).count o ≤ 1) ∧
    (AllInRange eqs → (eliminate (fun i => .sym (name i)) eqs).fits = true) := by
  obtain ⟨hrounds, hend⟩ := h.unrolled.exhausts h ((⟨[], eqs⟩ : State).operations.length + 1)
    (Nat.le_succ_of_le (State.card_repetitions_le _))
  obtain ⟨bs, hs⟩ := h.exists_unrolled ((⟨[], eqs⟩ : State).operations.length + 1)
  refine ⟨⟨_, hrounds, hend, rfl⟩, ?_, fits_eliminate h.injective⟩
  apply hs.isNumbered.count_operations_renumber h.injective (hs.regular h).canonical
  intro o
  by_contra hcount
  have hmem := State.mem_repetitions.2 (Nat.lt_of_not_le hcount)
  rw [State.targets_eq_nil_iff.1 hend] at hmem
  exact absurd hmem (Finset.notMem_empty o)

/-- A sum that occurs three times and a product that occurs twice are left once each. -/
theorem eliminate_exhausts_nested :
    (nested.flatMap fun eq => eq.rhs.operations).map
      (nested.flatMap fun eq => eq.rhs.operations).count = [1, 2, 3, 1, 2, 3, 1, 3] ∧
    ∃ out, eliminate (fun i => .sym s!"r{i}") nested = pure out ∧ out.length = 5 ∧
      ∀ o, (out.flatMap fun eq => eq.rhs.operations).count o ≤ 1 := by
  obtain ⟨-, honce, hfits⟩ := eliminate_exhausts admissible_nested
  refine ⟨by decide +kernel, _, Checked.eq_pure_iff.2 ⟨hfits allInRange_nested, rfl⟩, ?_, honce⟩
  decide +kernel

end Temporaries

end Stencil
