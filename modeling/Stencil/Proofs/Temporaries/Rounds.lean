import Stencil.Proofs.Body
import Stencil.Proofs.Expr.Compose
import Stencil.Proofs.Temporaries.Eliminate

/-!
This module contains the order in which the elimination of common subexpressions defines its
temporaries. A round takes the most expensive ones of the repeated operations. What contains one of
them is more expensive, so it is not repeated, and stays so when the temporaries are put in. Hence
no operation that mentions a temporary is ever taken in a later round, and what is repeated after a
round was repeated before it.
-/

namespace Stencil

theorem count_map_of_injOn {α β : Type} [DecidableEq α] [DecidableEq β] {f : α → β}
    {as : List α} {a : α} (h : ∀ b ∈ as, f b = f a → b = a) :
    (as.map f).count (f a) = as.count a := by
  rw [List.count, List.countP_map, List.count]
  apply List.countP_congr
  intro b hb
  simp only [Function.comp_apply, beq_iff_eq]
  exact ⟨h b hb, congrArg f⟩

namespace Temporaries

theorem exists_operations_map {σ : Expr → Option Expr} (hσ : Expr.Naming σ) {eqs : List Equation}
    (h : ∀ eq ∈ eqs, eq.rhs.Canonical) :
    ∃ os : List Expr, os.Sublist (eqs.flatMap fun eq => eq.rhs.operations) ∧
      (∀ o ∈ os, σ o = none) ∧
      ((eqs.map fun eq => (replaceIn σ eq).value).flatMap fun eq => eq.rhs.operations).Perm
        (os.map fun o => (o.replace σ).value) := by
  have hrhs : ∀ e ∈ eqs.map (·.rhs), ∃ os : List Expr, os.Sublist e.operations ∧
      (∀ o ∈ os, σ o = none) ∧
      (e.replace σ).value.operations.Perm (os.map fun o => (o.replace σ).value) := by
    intro e he
    obtain ⟨eq, heq, rfl⟩ := List.mem_map.1 he
    exact hσ.exists_operations_replace (h eq heq)
  obtain ⟨os, hsub, hnone, hperm⟩ := Expr.Naming.exists_operations_flatMap hrhs
  rw [List.flatMap_map] at hsub
  rw [List.map_map, List.flatMap_map] at hperm
  rw [List.flatMap_map]
  exact ⟨os, hsub, hnone, hperm⟩

variable {name : Nat → String}

namespace State

def names (name : Nat → String) (s : State) : Expr → Option Expr :=
  (OrdMap.ofList (s.bind (fun i => .sym (name i)) s.targets)).find?

theorem nodup_targets (s : State) : s.targets.Nodup := by
  apply List.Nodup.filter
  apply OrdMap.nodup_keys

theorem map_fst_bind (make : Nat → Expr) (s : State) :
    (s.bind make s.targets).map (·.1) = s.targets := by
  rw [bind, List.map_map]
  exact List.zipIdx_map_fst 0 s.targets

theorem map_snd_bind (make : Nat → Expr) (s : State) :
    (s.bind make s.targets).map (·.2) =
      (List.range s.targets.length).map fun j => make (s.temporaries.length + j) := by
  rw [List.range_eq_range', ← List.zipIdx_map_snd 0 s.targets, bind, List.map_map, List.map_map]
  rfl

theorem nodup_bind (make : Nat → Expr) (s : State) :
    ((s.bind make s.targets).map (·.1)).Nodup := by
  rw [map_fst_bind]
  exact s.nodup_targets

theorem names_eq_some {s : State} {a b : Expr} :
    s.names name a = some b ↔
      ∃ j, s.targets[j]? = some a ∧ b = .sym (name (s.temporaries.length + j)) := by
  have hmem : (a, b) ∈ s.bind (fun i => .sym (name i)) s.targets ↔
      ∃ j, s.targets[j]? = some a ∧ b = .sym (name (s.temporaries.length + j)) := by
    simp only [bind, List.mem_map, Prod.exists, List.mem_zipIdx_iff_getElem?, Prod.mk.injEq]
    constructor
    · rintro ⟨e, j, he, rfl, rfl⟩
      exact ⟨j, he, rfl⟩
    · rintro ⟨j, ha, rfl⟩
      exact ⟨a, j, ha, rfl, rfl⟩
  rw [names, OrdMap.find?_ofList_iff (nodup_bind _ s), hmem]

theorem mem_targets_of_names {s : State} {a b : Expr} (h : s.names name a = some b) :
    a ∈ s.targets := by
  obtain ⟨j, hj, -⟩ := names_eq_some.1 h
  exact List.mem_of_getElem? hj

theorem mem_operations_of_mem_targets {s : State} {o : Expr} (ho : o ∈ s.targets) :
    o ∈ s.operations := by
  apply List.count_pos_iff.1
  have := (mem_targets.1 ho).1
  omega

theorem exists_within_of_mem_operations {s : State} {o : Expr} (ho : o ∈ s.operations) :
    o.isOperation = true ∧ ∃ eq ∈ s.equations, o.Within eq.rhs := by
  obtain ⟨eq, heq, ho⟩ := List.mem_flatMap.1 ho
  obtain ⟨hop, hwithin⟩ := Expr.mem_operations.1 ho
  exact ⟨hop, eq, heq, hwithin⟩

theorem isOperation_of_names {s : State} {a b : Expr} (h : s.names name a = some b) :
    a.isOperation = true :=
  (exists_within_of_mem_operations (mem_operations_of_mem_targets (mem_targets_of_names h))).1

theorem naming_names (s : State) : Expr.Naming (s.names name) := by
  intro a b hab
  have hop := isOperation_of_names hab
  obtain ⟨j, -, rfl⟩ := names_eq_some.1 hab
  exact ⟨by cases a <;> simp_all [Expr.isOperation, Expr.isNumber], _, rfl⟩

theorem names_of_isAtom {s : State} {a : Expr} (ha : a.isAtom = true) : s.names name a = none := by
  cases hcase : s.names name a with
  | none => rfl
  | some b =>
    have hop := isOperation_of_names hcase
    cases a <;> simp_all [Expr.isOperation, Expr.isAtom]

def operands (name : Nat → String) (s : State) : Expr → Option Expr :=
  (OrdMap.ofList ((s.bind (fun i => .sym (name i)) s.targets).map Prod.swap)).find?

theorem operands_eq_some (hname : Function.Injective name) {s : State} {a b : Expr} :
    s.operands name b = some a ↔
      ∃ j, s.targets[j]? = some a ∧ b = .sym (name (s.temporaries.length + j)) := by
  have hnodup : (((s.bind (fun i => Expr.sym (name i)) s.targets).map Prod.swap).map
      (·.1)).Nodup := by
    rw [List.map_map]
    apply (s.map_snd_bind fun i => Expr.sym (name i)) ▸ List.Nodup.map _ List.nodup_range
    intro i j hij
    have := hname (Expr.sym.inj hij)
    omega
  rw [operands, OrdMap.find?_ofList_iff hnodup, List.mem_map]
  simp only [bind, List.mem_map, Prod.exists, List.mem_zipIdx_iff_getElem?, Prod.mk.injEq,
    Prod.swap_prod_mk]
  constructor
  · rintro ⟨_, _, ⟨_, j, hj, rfl, rfl⟩, rfl, rfl⟩
    exact ⟨j, hj, rfl⟩
  · rintro ⟨j, hj, rfl⟩
    exact ⟨a, _, ⟨a, j, hj, rfl, rfl⟩, rfl, rfl⟩

theorem temporaries_next (s : State) :
    (s.next fun i => .sym (name i)).temporaries =
      ((s.bind (fun i => .sym (name i)) s.targets).reverse.map fun b => ⟨b.2, b.1, false⟩) ++
        s.temporaries.map fun t => (replaceIn (s.names name) t).value := by
  simp [next, replace, names]

theorem program_next (s : State) :
    (s.next fun i => .sym (name i)).program =
      s.program.map fun eq => (replaceIn (s.names name) eq).value := by
  simp [next, replace, names]

theorem equations_next (s : State) :
    (s.next fun i => .sym (name i)).equations =
      ((s.bind (fun i => .sym (name i)) s.targets).reverse.map fun b => ⟨b.2, b.1, false⟩) ++
        s.equations.map fun eq => (replaceIn (s.names name) eq).value := by
  rw [equations, temporaries_next, program_next, equations, List.map_append, List.append_assoc]

theorem mem_bound {s : State} {eq : Equation} :
    (eq ∈ (s.bind (fun i => .sym (name i)) s.targets).reverse.map fun b => ⟨b.2, b.1, false⟩) ↔
      ∃ j o, s.targets[j]? = some o ∧
        eq = ⟨.sym (name (s.temporaries.length + j)), o, false⟩ := by
  simp only [bind, List.mem_map, List.mem_reverse, Prod.exists, List.mem_zipIdx_iff_getElem?,
    Prod.mk.injEq]
  constructor
  · rintro ⟨_, _, ⟨o, j, hj, rfl, rfl⟩, rfl⟩
    exact ⟨j, o, hj, rfl⟩
  · rintro ⟨j, o, hj, rfl⟩
    exact ⟨o, _, ⟨o, j, hj, rfl, rfl⟩, rfl⟩

theorem mem_temporaries_next {s : State} {t : Equation} :
    t ∈ (s.next fun i => .sym (name i)).temporaries ↔
      (∃ j o, s.targets[j]? = some o ∧
        t = ⟨.sym (name (s.temporaries.length + j)), o, false⟩) ∨
      ∃ t' ∈ s.temporaries, t = (replaceIn (s.names name) t').value := by
  rw [temporaries_next, List.mem_append, mem_bound, List.mem_map]
  simp only [eq_comm]

theorem mem_equations_names {s : State} {eq : Equation} :
    eq ∈ (s.next fun i => .sym (name i)).equations ↔
      (∃ j o, s.targets[j]? = some o ∧
        eq = ⟨.sym (name (s.temporaries.length + j)), o, false⟩) ∨
      ∃ eq' ∈ s.equations, eq = (replaceIn (s.names name) eq').value := by
  rw [equations_next, List.mem_append, mem_bound, List.mem_map]
  simp only [eq_comm]

theorem length_temporaries_next (s : State) :
    (s.next fun i => .sym (name i)).temporaries.length =
      s.temporaries.length + s.targets.length := by
  rw [temporaries_next, List.length_append, List.length_map, List.length_map,
    List.length_reverse, bind, List.length_map, List.length_zipIdx, Nat.add_comm]

/-- The temporaries have the first names, the last one first. -/
def Numbered (name : Nat → String) (s : State) : Prop :=
  s.temporaries.map (·.lhs) =
    ((List.range s.temporaries.length).map fun i => Expr.sym (name i)).reverse

theorem Numbered.exists_number {s : State} (h : s.Numbered name) {t : Equation}
    (ht : t ∈ s.temporaries) : ∃ i < s.temporaries.length, t.lhs = .sym (name i) := by
  have hmem := List.mem_map_of_mem (f := Equation.lhs) ht
  rw [h, List.mem_reverse] at hmem
  obtain ⟨i, hi, heq⟩ := List.mem_map.1 hmem
  exact ⟨i, List.mem_range.1 hi, heq.symm⟩

theorem Numbered.next {s : State} (h : s.Numbered name) :
    (s.next fun i => .sym (name i)).Numbered name := by
  have hold : (s.temporaries.map fun t => (replaceIn (s.names name) t).value).map (·.lhs) =
      s.temporaries.map (·.lhs) := by
    rw [List.map_map]
    apply List.map_congr_left
    intro t ht
    obtain ⟨i, -, hi⟩ := h.exists_number ht
    rw [Function.comp_apply, value_replaceIn, hi]
    exact Expr.value_replace_of_leaf (names_of_isAtom rfl) rfl
  unfold Numbered at h ⊢
  rw [length_temporaries_next, temporaries_next, List.map_append, hold, h, List.range_add,
    List.map_append, List.reverse_append, List.map_reverse, List.map_reverse, List.map_map,
    List.map_map]
  exact congrArg (List.reverse · ++ _) (s.map_snd_bind _)

structure Regular (name : Nat → String) (s : State) : Prop where
  canonical : ∀ eq ∈ s.equations, eq.rhs.Canonical
  fresh : ∀ eq ∈ s.equations, ∀ i, s.temporaries.length ≤ i → name i ∉ eq.rhs.valueSymbols

namespace Regular

variable {s : State}

theorem canonical_of_mem_operations (h : s.Regular name) {o : Expr} (ho : o ∈ s.operations) :
    o.Canonical := by
  obtain ⟨-, eq, heq, hwithin⟩ := exists_within_of_mem_operations ho
  exact (h.canonical eq heq).of_within hwithin

theorem fresh_of_mem_operations (h : s.Regular name) {o : Expr} (ho : o ∈ s.operations) {i : Nat}
    (hi : s.temporaries.length ≤ i) : name i ∉ o.valueSymbols := by
  obtain ⟨-, eq, heq, hwithin⟩ := exists_within_of_mem_operations ho
  intro hmem
  apply h.fresh eq heq i hi
  rw [Expr.mem_valueSymbols] at hmem ⊢
  exact hmem.trans hwithin

theorem replace_operands (h : s.Regular name) (hname : Function.Injective name) {o : Expr}
    (ho : o ∈ s.operations) :
    ((o.replace (s.names name)).value.replace (s.operands name)).value = o := by
  apply s.naming_names.replace_restore _ _ (h.canonical_of_mem_operations ho)
  · intro x hx _
    cases hcase : s.operands name (.sym x) with
    | none => rfl
    | some a =>
      obtain ⟨j, -, hj⟩ := (operands_eq_some hname).1 hcase
      rw [Expr.sym.inj hj, ← Expr.mem_valueSymbols] at hx
      exact absurd hx (h.fresh_of_mem_operations ho (by omega))
  · intro a b hab
    exact (operands_eq_some hname).2 (names_eq_some.1 hab)
  · intro a b hab
    obtain ⟨j, -, hj⟩ := (operands_eq_some hname).1 hab
    exact ⟨_, hj⟩

theorem replace_names_inj (h : s.Regular name) (hname : Function.Injective name) {o o' : Expr}
    (ho : o ∈ s.operations) (ho' : o' ∈ s.operations)
    (heq : (o.replace (s.names name)).value = (o'.replace (s.names name)).value) : o = o' := by
  rw [← h.replace_operands hname ho, heq, h.replace_operands hname ho']

theorem replace_names_eq_self (h : s.Regular name) {o : Expr} (ho : o ∈ s.operations)
    (hfresh : ∀ i, s.temporaries.length ≤ i →
      name i ∉ (o.replace (s.names name)).value.valueSymbols) :
    (o.replace (s.names name)).value = o := by
  apply s.naming_names.replace_eq_self (h.canonical_of_mem_operations ho)
  intro a x hax hwithin
  obtain ⟨j, -, hj⟩ := names_eq_some.1 hax
  rw [Expr.sym.inj hj, ← Expr.mem_valueSymbols] at hwithin
  exact hfresh _ (by omega) hwithin

theorem eq_of_within_target (h : s.Regular name) {a b : Expr} (ha : a ∈ s.targets)
    (hb : b ∈ s.targets) (hwithin : a.Within b) : a = b := by
  by_contra hne
  have hlt := (h.canonical_of_mem_operations (mem_operations_of_mem_targets hb)).cost_lt_of_within
    hwithin hne
  have hle := (mem_targets.1 ha).2 b (mem_targets.1 hb).1
  omega

theorem count_operations_targets (h : s.Regular name) {o : Expr} (ho : o ∈ s.targets) :
    (s.targets.flatMap Expr.operations).count o = 1 := by
  have hcount : ∀ a ∈ s.targets,
      (List.count o ∘ Expr.operations) a = (List.count o ∘ fun a => [a]) a := by
    intro a ha
    rw [Function.comp_apply, Function.comp_apply]
    by_cases hao : a = o
    · have hmem := mem_operations_of_mem_targets ho
      rw [hao, (h.canonical_of_mem_operations hmem).count_operations_self
        (exists_within_of_mem_operations hmem).1, List.count_singleton_self]
    · rw [List.count_eq_zero.2, List.count_eq_zero.2 (by simpa using Ne.symm hao)]
      intro hmem
      exact hao (h.eq_of_within_target ho ha (Expr.mem_operations.1 hmem).2).symm
  rw [List.count_flatMap, List.map_congr_left hcount, ← List.count_flatMap,
    List.flatMap_singleton', List.count_eq_one_of_mem s.nodup_targets ho]

theorem exists_operations_next (h : s.Regular name) :
    ∃ os : List Expr, os.Sublist s.operations ∧ (∀ o ∈ os, s.names name o = none) ∧
      (s.next fun i => .sym (name i)).operations.Perm
        (s.targets.flatMap Expr.operations ++
          os.map fun o => (o.replace (s.names name)).value) := by
  have hnew : (((s.bind (fun i => Expr.sym (name i)) s.targets).reverse.map
      fun b => (⟨b.2, b.1, false⟩ : Equation)).flatMap fun eq => eq.rhs.operations).Perm
      (s.targets.flatMap Expr.operations) := by
    rw [List.flatMap_map]
    conv_rhs => rw [← s.map_fst_bind fun i => Expr.sym (name i), List.flatMap_map]
    exact (List.reverse_perm _).flatMap_right _
  obtain ⟨os, hsub, hnone, hold⟩ := exists_operations_map s.naming_names h.canonical
  refine ⟨os, hsub, hnone, ?_⟩
  rw [operations, equations_next, List.flatMap_append]
  exact hnew.append hold

theorem repeated_of_next (h : s.Regular name) (hname : Function.Injective name) {o : Expr}
    (ho : 1 < (s.next fun i => .sym (name i)).operations.count o) :
    1 < s.operations.count o ∧ o ∉ s.targets := by
  obtain ⟨os, hsub, hnone, hperm⟩ := h.exists_operations_next
  have hnotarget {o : Expr} (ho : o ∈ os) : o ∉ s.targets := by
    intro htarget
    obtain ⟨j, hj⟩ := List.mem_iff_getElem?.1 htarget
    have hsome : s.names name o = some _ := names_eq_some.2 ⟨j, hj, rfl⟩
    rw [hnone o ho] at hsome
    cases hsome
  rw [hperm.count_eq, List.count_append] at ho
  by_cases hnew : o ∈ s.targets.flatMap Expr.operations
  · obtain ⟨a, ha, hoa⟩ := List.mem_flatMap.1 hnew
    have hrepeated : 1 < s.operations.count o := by
      apply Nat.lt_of_lt_of_le (mem_targets.1 ha).1
      exact Expr.count_flatMap_le fun eq heq => Expr.count_operations_le (h.canonical eq heq) hoa
    refine ⟨hrepeated, fun htarget => ?_⟩
    -- A target is left in its own equation only.
    have hold : (os.map fun o => (o.replace (s.names name)).value).count o = 0 := by
      rw [List.count_eq_zero]
      intro hmem
      obtain ⟨o₀, ho₀, rfl⟩ := List.mem_map.1 hmem
      rw [h.replace_names_eq_self (hsub.subset ho₀) fun i hi => h.fresh_of_mem_operations
        (mem_operations_of_mem_targets htarget) hi] at htarget
      exact hnotarget ho₀ htarget
    rw [hold, h.count_operations_targets htarget] at ho
    omega
  · rw [List.count_eq_zero.2 hnew, Nat.zero_add] at ho
    obtain ⟨o₀, ho₀, rfl⟩ := List.mem_map.1 (List.count_pos_iff.1 (Nat.zero_lt_of_lt ho))
    rw [count_map_of_injOn fun o ho heq =>
      h.replace_names_inj hname (hsub.subset ho) (hsub.subset ho₀) heq] at ho
    have hrepeated := Nat.lt_of_lt_of_le ho (hsub.count_le o₀)
    -- What contains a target is more expensive than the targets, so it is not repeated.
    have hself : (o₀.replace (s.names name)).value = o₀ := by
      have hcanonical := h.canonical_of_mem_operations (hsub.subset ho₀)
      apply hcanonical.replace_eq_self
      intro a ha
      cases hcase : s.names name a with
      | none => rfl
      | some b =>
        have htarget := mem_targets_of_names hcase
        have hlt := hcanonical.cost_lt_of_within ha fun hao => hnotarget ho₀ (hao ▸ htarget)
        have hle := (mem_targets.1 htarget).2 o₀ hrepeated
        omega
    rw [hself]
    exact ⟨hrepeated, hnotarget ho₀⟩

end Regular

end State

/--
What the rounds keep. Of the scalars, those that are `marked` have to be computed before they are
used; temporaries do not mention them.
-/
structure Consistent (name : Nat → String) (marked : String → Prop) (s : State) : Prop where
  canonical : ∀ eq ∈ s.equations, eq.rhs.Canonical
  numbered : s.temporaries.map (·.lhs) =
    ((List.range s.temporaries.length).map fun i => Expr.sym (name i)).reverse
  plain : ∀ t ∈ s.temporaries, t.isIncrement = false
  program : ∀ eq ∈ s.program, eq.lhs.isAtom = true ∧ ∀ i, eq.lhs ≠ .sym (name i)
  assigned : ∀ eq ∈ s.program, ∀ x, eq.lhs = .sym x → marked x
  indices : ∀ eq ∈ s.equations,
    eq.AllReferences fun r => ∀ x ∈ Expr.symbolsOfList r.indices, ∀ i, x ≠ name i
  fresh : ∀ eq ∈ s.equations, ∀ i, s.temporaries.length ≤ i → name i ∉ eq.rhs.valueSymbols
  once : ∀ o, ∀ x ∈ o.valueSymbols, (marked x ∨ ∃ i, x = name i) → s.operations.count o ≤ 1
  later : ∀ t ∈ s.temporaries, ∀ i, t.lhs = .sym (name i) → ∀ j ≤ i, name j ∉ t.rhs.valueSymbols
  unmarked : ∀ t ∈ s.temporaries, ∀ x ∈ t.rhs.valueSymbols, ¬ marked x

namespace Consistent

variable {marked : String → Prop} {s : State}

theorem isNumbered (h : Consistent name marked s) : s.Numbered name := h.numbered

theorem isAtom_lhs (h : Consistent name marked s) {eq : Equation} (heq : eq ∈ s.equations) :
    eq.lhs.isAtom = true := by
  rcases List.mem_append.1 heq with ht | hprogram
  · obtain ⟨i, -, hi⟩ := h.isNumbered.exists_number ht
    rw [hi]
    rfl
  · exact (h.program eq hprogram).1

theorem lhs_replaceIn (h : Consistent name marked s) {eq : Equation} (heq : eq ∈ s.equations) :
    (replaceIn (s.names name) eq).value.lhs = eq.lhs := by
  have hatom := h.isAtom_lhs heq
  rw [value_replaceIn]
  apply Expr.value_replace_of_leaf (State.names_of_isAtom hatom)
  cases hlhs : eq.lhs <;> simp_all [Expr.isAtom, Expr.isOperation]

theorem regular (h : Consistent name marked s) : s.Regular name := ⟨h.canonical, h.fresh⟩

theorem not_mem_target (h : Consistent name marked s) {o : Expr} (ho : o ∈ s.targets) {x : String}
    (hx : x ∈ o.valueSymbols) : ¬ marked x ∧ ∀ i, x ≠ name i := by
  have hcount := (State.mem_targets.1 ho).1
  constructor
  · intro hmarked
    have := h.once o x hx (.inl hmarked)
    omega
  · intro i hi
    have := h.once o x hx (.inr ⟨i, hi⟩)
    omega

theorem mem_valueSymbols_replace {e : Expr} {x : String}
    (hx : x ∈ (e.replace (s.names name)).value.valueSymbols) :
    x ∈ e.valueSymbols ∨
      ∃ j a, s.targets[j]? = some a ∧ a.Within e ∧ x = name (s.temporaries.length + j) := by
  rw [Expr.mem_valueSymbols] at hx ⊢
  rcases Expr.within_replace rfl hx with ⟨hx, -⟩ | ⟨a, b, ha, hab, hx⟩
  · exact .inl hx
  · obtain ⟨j, hj, rfl⟩ := State.names_eq_some.1 hab
    exact .inr ⟨j, a, hj, ha, Expr.sym.inj (hx.eq_of_args rfl)⟩

theorem count_next_le (h : Consistent name marked s) (hname : Function.Injective name) {o : Expr}
    {x : String} (hx : x ∈ o.valueSymbols) (hmark : marked x ∨ ∃ i, x = name i) :
    (s.next fun i => .sym (name i)).operations.count o ≤ 1 := by
  by_contra hcount
  have hrepeated := (h.regular.repeated_of_next hname (Nat.lt_of_not_le hcount)).1
  have := h.once o x hx hmark
  omega

theorem unnamed_of_repeated (h : Consistent name marked s) {o : Expr}
    (ho : 1 < s.operations.count o) (i : Nat) : name i ∉ o.valueSymbols := by
  intro hi
  have := h.once o _ hi (.inr ⟨i, rfl⟩)
  omega

theorem mem_operations_of_replace (h : Consistent name marked s) {eq : Equation}
    (heq : eq ∈ s.equations) {o : Expr}
    (ho : o ∈ (eq.rhs.replace (s.names name)).value.operations)
    (hunnamed : ∀ i, name i ∉ o.valueSymbols) : o ∈ eq.rhs.operations := by
  obtain ⟨os, hsub, -, hperm⟩ := s.naming_names.exists_operations_replace (h.canonical eq heq)
  obtain ⟨o₀, ho₀, rfl⟩ := List.mem_map.1 (hperm.mem_iff.1 ho)
  have hmem : o₀ ∈ s.operations := List.mem_flatMap.2 ⟨eq, heq, hsub.subset ho₀⟩
  rw [h.regular.replace_names_eq_self hmem fun i _ => hunnamed i]
  exact hsub.subset ho₀

theorem next (h : Consistent name marked s) (hname : Function.Injective name)
    (hmarked : ∀ i, ¬ marked (name i)) :
    Consistent name marked (s.next fun i => .sym (name i)) := by
  have hlt {j : Nat} {o : Expr} (ho : s.targets[j]? = some o) : j < s.targets.length :=
    (List.getElem?_eq_some_iff.1 ho).1
  constructor
  case canonical =>
    intro eq heq
    rcases State.mem_equations_names.1 heq with ⟨j, o, ho, rfl⟩ | ⟨eq', heq', rfl⟩
    · apply h.regular.canonical_of_mem_operations
      exact State.mem_operations_of_mem_targets (List.mem_of_getElem? ho)
    · rw [value_replaceIn]
      exact s.naming_names.canonical_replace (h.canonical eq' heq')
  case numbered => exact h.isNumbered.next
  case plain =>
    intro t ht
    rcases State.mem_temporaries_next.1 ht with ⟨j, o, -, rfl⟩ | ⟨t', ht', rfl⟩
    · rfl
    · rw [value_replaceIn]
      exact h.plain t' ht'
  case program =>
    intro eq heq
    rw [State.program_next] at heq
    obtain ⟨eq', heq', rfl⟩ := List.mem_map.1 heq
    rw [h.lhs_replaceIn (List.mem_append_right _ heq')]
    exact h.program eq' heq'
  case assigned =>
    intro eq heq x hx
    rw [State.program_next] at heq
    obtain ⟨eq', heq', rfl⟩ := List.mem_map.1 heq
    rw [h.lhs_replaceIn (List.mem_append_right _ heq')] at hx
    exact h.assigned eq' heq' x hx
  case indices => exact State.allReferences_next (fun _ => rfl) h.indices
  case fresh =>
    intro eq heq i hi hmem
    rw [State.length_temporaries_next] at hi
    rcases State.mem_equations_names.1 heq with ⟨j, o, ho, rfl⟩ | ⟨eq', heq', rfl⟩
    · have ho := State.mem_operations_of_mem_targets (List.mem_of_getElem? ho)
      exact h.regular.fresh_of_mem_operations ho (by omega) hmem
    · rw [value_replaceIn] at hmem
      rcases mem_valueSymbols_replace hmem with hmem | ⟨j, o, ho, -, hj⟩
      · exact h.fresh eq' heq' i (by omega) hmem
      · have := hlt ho
        have := hname hj
        omega
  case once => exact fun o x hx hmark => h.count_next_le hname hx hmark
  case later =>
    intro t ht i hi j hj hmem
    rcases State.mem_temporaries_next.1 ht with ⟨k, o, ho, rfl⟩ | ⟨t', ht', rfl⟩
    · exact (h.not_mem_target (List.mem_of_getElem? ho) hmem).2 j rfl
    · rw [h.lhs_replaceIn (List.mem_append_left _ ht')] at hi
      rw [value_replaceIn] at hmem
      rcases mem_valueSymbols_replace hmem with hmem | ⟨k, o, ho, -, hk⟩
      · exact h.later t' ht' i hi j hj hmem
      · obtain ⟨i', hi', hlhs⟩ := h.isNumbered.exists_number ht'
        have := hname (Expr.sym.inj (hi.symm.trans hlhs))
        have := hname hk
        omega
  case unmarked =>
    intro t ht x hx
    rcases State.mem_temporaries_next.1 ht with ⟨k, o, ho, rfl⟩ | ⟨t', ht', rfl⟩
    · exact (h.not_mem_target (List.mem_of_getElem? ho) hx).1
    · rw [value_replaceIn] at hx
      rcases mem_valueSymbols_replace hx with hx | ⟨k, o, -, -, rfl⟩
      · exact h.unmarked t' ht' x hx
      · exact hmarked _

end Consistent

end Temporaries

end Stencil
