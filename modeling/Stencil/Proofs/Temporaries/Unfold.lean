import Stencil.Proofs.Temporaries.Rounds

/-!
This module contains what equations compute when common subexpressions have been eliminated from
them: the same as before, provided that the temporaries have the values of their equations. What
temporaries are computed from has been part of operations that were repeated.
-/

namespace Stencil

namespace Temporaries

variable {name : Nat → String} {marked : String → Prop} {s : State} {eqs : List Equation}

structure Unfolds (name : Nat → String) (s : State) (eqs : List Equation) (eq eq₀ : Equation) :
    Prop where
  lhs : eq.lhs = eq₀.lhs
  isIncrement : eq.isIncrement = eq₀.isIncrement
  symbols : ∀ x ∈ eq.rhs.valueSymbols, x ∈ eq₀.rhs.valueSymbols ∨ ∃ i, x = name i
  value : ∀ {K : Type} [Field K] [DecidableEq K] (calls : Calls K) (base : Memory K),
    (∀ t ∈ s.temporaries, t.Holds calls base) →
      base.value calls eq.rhs = base.value calls eq₀.rhs
  drawn : ∀ r, Body.Drawn s.equations r eq.rhs → Body.ReadAhead eqs r eq₀.rhs

theorem Unfolds.refl (eqs : List Equation) (eq : Equation) : Unfolds name ⟨[], eqs⟩ eqs eq eq where
  lhs := rfl
  isIncrement := rfl
  symbols _ := .inl
  value _ _ _ := rfl
  drawn _ := .inl

def Repeats (s : State) (eqs : List Equation) (eq eq₀ : Equation) : Prop :=
  ∀ o ∈ eq.rhs.operations, 1 < s.operations.count o →
    o ∈ eq₀.rhs.operations ∧ 1 < (eqs.flatMap fun eq => eq.rhs.operations).count o

namespace Consistent

section Values

variable {K : Type} [Field K] [DecidableEq K] {calls : Calls K} {base : Memory K}

theorem value_replace_names
    (hholds : ∀ t ∈ (s.next fun i => .sym (name i)).temporaries, t.Holds calls base) {e : Expr}
    (he : e.Canonical) :
    base.value calls (e.replace (s.names name)).value = base.value calls e := by
  apply s.naming_names.denote_replace (fun _ _ _ _ => rfl) _ he fun _ _ _ _ => rfl
  intro a x hax
  obtain ⟨j, hj, hx⟩ := State.names_eq_some.1 hax
  rw [Expr.sym.inj hx]
  exact hholds _ (State.mem_temporaries_next.2 (.inl ⟨j, a, hj, rfl⟩)) _ rfl

theorem holds_of_next (h : Consistent name marked s)
    (hholds : ∀ t ∈ (s.next fun i => .sym (name i)).temporaries, t.Holds calls base) :
    ∀ t ∈ s.temporaries, t.Holds calls base := by
  intro t ht x hx
  have hmem : t ∈ s.equations := List.mem_append_left _ ht
  rw [← value_replace_names hholds (h.canonical t hmem)]
  apply hholds _ (State.mem_temporaries_next.2 (.inr ⟨t, ht, rfl⟩))
  rw [h.lhs_replaceIn hmem, hx]

end Values

theorem lhs_cases (h : Consistent name marked s) {eq : Equation} (heq : eq ∈ s.equations)
    {x : String} (hlhs : eq.lhs = .sym x) : marked x ∨ ∃ i, x = name i := by
  rcases List.mem_append.1 heq with ht | hprogram
  · obtain ⟨i, -, hi⟩ := h.isNumbered.exists_number ht
    exact .inr ⟨i, Expr.sym.inj (hlhs.symm.trans hi)⟩
  · exact .inl (h.assigned eq hprogram x hlhs)

theorem sources_target (h : Consistent name marked s) (hname : Function.Injective name)
    (hmarked : ∀ i, ¬ marked (name i)) {a : Expr} (ha : a ∈ s.targets) {r : Reference}
    (hr : Body.Sources (s.next fun i => .sym (name i)).equations r a) : r ∈ a.references := by
  cases hr with
  | element hr => exact hr
  | scalar heq hlhs hx _ =>
    obtain ⟨hunmarked, hunnamed⟩ := h.not_mem_target ha hx
    rcases (h.next hname hmarked).lhs_cases heq hlhs with hmark | ⟨i, hi⟩
    · exact absurd hmark hunmarked
    · exact absurd hi (hunnamed i)

theorem equations_next_cases (h : Consistent name marked s) (hname : Function.Injective name)
    {e : Expr} (hfresh : ∀ i, s.temporaries.length ≤ i → name i ∉ e.valueSymbols) {eq : Equation}
    (heq : eq ∈ (s.next fun i => .sym (name i)).equations) {x : String} (hlhs : eq.lhs = .sym x)
    (hx : x ∈ (e.replace (s.names name)).value.valueSymbols) :
    (∃ eq' ∈ s.equations, eq = (replaceIn (s.names name) eq').value ∧ eq'.lhs = .sym x ∧
      x ∈ e.valueSymbols) ∨ ∃ a ∈ s.targets, a.Within e ∧ eq.rhs = a := by
  rcases State.mem_equations_names.1 heq with ⟨j, o, hj, rfl⟩ | ⟨eq', heq', rfl⟩
  · obtain rfl := Expr.sym.inj hlhs
    rcases mem_valueSymbols_replace hx with hx | ⟨k, a, hk, hwithin, hjk⟩
    · exact absurd hx (hfresh _ (by omega))
    · have hjk := hname hjk
      obtain rfl : j = k := by omega
      obtain rfl := Option.some.inj (hj.symm.trans hk)
      exact .inr ⟨o, List.mem_of_getElem? hj, hwithin, rfl⟩
  · rw [h.lhs_replaceIn heq'] at hlhs
    rcases mem_valueSymbols_replace hx with hx | ⟨k, a, -, -, rfl⟩
    · exact .inl ⟨eq', heq', rfl, hlhs, hx⟩
    · -- No equation computes a temporary before the round that makes it.
      rcases List.mem_append.1 heq' with ht | hprogram
      · obtain ⟨i, hi, hnumber⟩ := h.isNumbered.exists_number ht
        have := hname (Expr.sym.inj (hlhs.symm.trans hnumber))
        omega
      · exact absurd hlhs ((h.program eq' hprogram).2 _)

theorem sources_of_next (h : Consistent name marked s) (hname : Function.Injective name)
    (hmarked : ∀ i, ¬ marked (name i)) {e : Expr}
    (hfresh : ∀ i, s.temporaries.length ≤ i → name i ∉ e.valueSymbols) {r : Reference}
    (hr : Body.Sources (s.next fun i => .sym (name i)).equations r
      (e.replace (s.names name)).value) : Body.Sources s.equations r e := by
  generalize he' : (e.replace (s.names name)).value = e' at hr
  induction hr generalizing e with
  | element hr =>
    rw [← he'] at hr
    rcases Expr.mem_references_replace hr with hr | ⟨a, b, -, hab, hr⟩
    · exact .element hr
    · obtain ⟨j, -, rfl⟩ := State.names_eq_some.1 hab
      cases hr
  | scalar heq hlhs hx hr ih =>
    rw [← he'] at hx
    rcases h.equations_next_cases hname hfresh heq hlhs hx with
      ⟨eq', heq', rfl, hlhs', hx'⟩ | ⟨a, ha, hwithin, rfl⟩
    · exact .scalar heq' hlhs' hx' (ih (h.fresh eq' heq') rfl)
    · exact .element (hwithin.mem_references (h.sources_target hname hmarked ha hr))

theorem drawn_of_next (h : Consistent name marked s) (hname : Function.Injective name)
    (hmarked : ∀ i, ¬ marked (name i)) {e : Expr}
    (hfresh : ∀ i, s.temporaries.length ≤ i → name i ∉ e.valueSymbols) {r : Reference}
    (hr : Body.Drawn (s.next fun i => .sym (name i)).equations r
      (e.replace (s.names name)).value) :
    Body.Drawn s.equations r e ∨ ∃ a ∈ s.targets, a.Within e ∧ r ∈ a.references := by
  obtain ⟨eq, heq, x, hlhs, hx, hr⟩ := hr
  rcases h.equations_next_cases hname hfresh heq hlhs hx with
    ⟨eq', heq', rfl, hlhs', hx'⟩ | ⟨a, ha, hwithin, rfl⟩
  · exact .inl ⟨eq', heq', x, hlhs', hx', h.sources_of_next hname hmarked (h.fresh eq' heq') hr⟩
  · exact .inr ⟨_, ha, hwithin, h.sources_target hname hmarked ha hr⟩

end Consistent

theorem Unfolds.next (h : Consistent name marked s) (hname : Function.Injective name)
    (hmarked : ∀ i, ¬ marked (name i)) {eq eq₀ : Equation} (heq : eq ∈ s.program)
    (hunfolds : Unfolds name s eqs eq eq₀) (hrepeats : Repeats s eqs eq eq₀) :
    Unfolds name (s.next fun i => .sym (name i)) eqs (replaceIn (s.names name) eq).value eq₀ where
  lhs := (h.lhs_replaceIn (List.mem_append_right _ heq)).trans hunfolds.lhs
  isIncrement := hunfolds.isIncrement
  symbols x hx := by
    rw [value_replaceIn] at hx
    rcases Consistent.mem_valueSymbols_replace hx with hx | ⟨j, a, -, -, rfl⟩
    · exact hunfolds.symbols x hx
    · exact .inr ⟨_, rfl⟩
  value calls base hholds := by
    rw [value_replaceIn, Consistent.value_replace_names hholds
      (h.canonical eq (List.mem_append_right _ heq))]
    exact hunfolds.value calls base (h.holds_of_next hholds)
  drawn r hr := by
    rw [value_replaceIn] at hr
    have hfresh := h.fresh eq (List.mem_append_right _ heq)
    rcases h.drawn_of_next hname hmarked hfresh hr with hr | ⟨a, ha, hwithin, hr⟩
    · exact hunfolds.drawn r hr
    · have hop := (State.exists_within_of_mem_operations (State.mem_operations_of_mem_targets ha)).1
      obtain ⟨hmem, hcount⟩ := hrepeats a (Expr.mem_operations.2 ⟨hop, hwithin⟩)
        (State.mem_targets.1 ha).1
      exact .inr ⟨a, hmem, hcount, hr⟩

theorem Repeats.next (h : Consistent name marked s) (hname : Function.Injective name)
    {eq eq₀ : Equation} (heq : eq ∈ s.program) (hrepeats : Repeats s eqs eq eq₀) :
    Repeats (s.next fun i => .sym (name i)) eqs (replaceIn (s.names name) eq).value eq₀ := by
  intro o ho hcount
  rw [value_replaceIn] at ho
  have hcount := (h.regular.repeated_of_next hname hcount).1
  apply hrepeats o _ hcount
  exact h.mem_operations_of_replace (List.mem_append_right _ heq) ho (h.unnamed_of_repeated hcount)

theorem eliminate_unfolds (hname : Function.Injective name) (hmarked : ∀ i, ¬ marked (name i))
    (h : Consistent name marked ⟨[], eqs⟩) (fuel : Nat) :
    let s := (State.eliminate (fun i => .sym (name i)) fuel ⟨[], eqs⟩).value
    Consistent name marked s ∧ List.Forall₂ (Unfolds name s eqs) s.program eqs := by
  intro s
  have hrounds : Consistent name marked s ∧ List.Forall₂ (fun eq eq₀ =>
      Unfolds name s eqs eq eq₀ ∧ Repeats s eqs eq eq₀) s.program eqs := by
    apply State.eliminate_induct (motive := fun s =>
      Consistent name marked s ∧ List.Forall₂ (fun eq eq₀ =>
        Unfolds name s eqs eq eq₀ ∧ Repeats s eqs eq eq₀) s.program eqs)
    · rintro s - ⟨h, hprogram⟩
      refine ⟨h.next hname hmarked, ?_⟩
      rw [State.program_next, List.forall₂_map_left_iff]
      exact forall₂_imp_of_mem hprogram fun eq heq eq₀ _ ⟨hunfolds, hrepeats⟩ =>
        ⟨hunfolds.next h hname hmarked heq hrepeats, hrepeats.next h hname heq⟩
    · exact ⟨h, List.forall₂_same.2 fun eq _ => ⟨.refl eqs eq, fun o ho hcount => ⟨ho, hcount⟩⟩⟩
  exact ⟨hrounds.1, hrounds.2.imp fun _ _ hboth => hboth.1⟩

namespace State

def swaps (s : State) : Expr → Option Expr :=
  let names := s.temporaries.map (·.lhs)
  (OrdMap.ofList (names.zip names.reverse)).find?

def renumbered (s : State) : State where
  temporaries := s.temporaries.map fun t => (replaceIn s.swaps t).value
  program := s.program.map fun eq => (replaceIn s.swaps eq).value

def unswap {K : Type} [Field K] [DecidableEq K] (calls : Calls K) (s : State) (base : Memory K) :
    Memory K :=
  { base with scalar := fun x => base.value calls ((Expr.sym x).replace s.swaps).value }

theorem equations_renumbered (s : State) : s.renumbered.equations = s.renumber.value := by
  simp [renumbered, renumber, equations, swaps]

end State

namespace State.Numbered

theorem swaps_eq_some (h : s.Numbered name) (hname : Function.Injective name)
    {a b : Expr} :
    s.swaps a = some b ↔
      ∃ i j, i + j + 1 = s.temporaries.length ∧ a = .sym (name i) ∧ b = .sym (name j) := by
  have hnodup : ((List.range s.temporaries.length).map fun i => Expr.sym (name i)).Nodup := by
    apply List.Nodup.map _ List.nodup_range
    exact fun i j hij => hname (Expr.sym.inj hij)
  have hkeys : ((s.temporaries.map (·.lhs)).zip (s.temporaries.map (·.lhs)).reverse).map (·.1) =
      s.temporaries.map (·.lhs) := List.map_fst_zip (by simp)
  have hnodup : ((s.temporaries.map (·.lhs)).zip (s.temporaries.map (·.lhs)).reverse
      |>.map (·.1)).Nodup := by
    rw [hkeys, h]
    exact List.nodup_reverse.2 hnodup
  rw [State.swaps, OrdMap.find?_ofList_iff hnodup, h, List.reverse_reverse,
    List.mem_iff_getElem?]
  simp only [List.getElem?_zip_eq_some]
  constructor
  · rintro ⟨k, ha, hb⟩
    obtain ⟨hk, rfl⟩ := List.getElem?_eq_some_iff.1 hb
    rw [List.getElem?_reverse hk] at ha
    obtain ⟨_, rfl⟩ := List.getElem?_eq_some_iff.1 ha
    rw [List.length_map, List.length_range] at hk
    refine ⟨s.temporaries.length - 1 - k, k, by omega, ?_, ?_⟩ <;> simp
  · rintro ⟨i, j, hij, rfl, rfl⟩
    have hj : j < s.temporaries.length := by omega
    have hi : s.temporaries.length - 1 - j = i := by omega
    have hi' : i < s.temporaries.length := by omega
    refine ⟨j, ?_, ?_⟩
    · rw [List.getElem?_reverse (by simpa using hj)]
      simp [hi, hi']
    · simp [hj]

theorem naming_swaps (h : s.Numbered name) (hname : Function.Injective name) :
    Expr.Naming s.swaps := by
  intro a b hab
  obtain ⟨i, j, -, rfl, rfl⟩ := (h.swaps_eq_some hname).1 hab
  exact ⟨rfl, _, rfl⟩

theorem swaps_of_ne (h : s.Numbered name) (hname : Function.Injective name) {a : Expr}
    (ha : ∀ i, a ≠ .sym (name i)) : s.swaps a = none := by
  cases hcase : s.swaps a with
  | none => rfl
  | some b =>
    obtain ⟨i, j, -, hi, -⟩ := (h.swaps_eq_some hname).1 hcase
    exact absurd hi (ha i)

theorem replace_swaps_cases (h : s.Numbered name) (hname : Function.Injective name)
    {x y : String} (hxy : ((Expr.sym x).replace s.swaps).value = .sym y) :
    s.swaps (.sym x) = none ∧ y = x ∨
      ∃ i j, i + j + 1 = s.temporaries.length ∧ x = name i ∧ y = name j := by
  cases hcase : s.swaps (.sym x) with
  | none =>
    rw [Expr.value_replace_of_leaf hcase rfl] at hxy
    exact .inl ⟨rfl, (Expr.sym.inj hxy).symm⟩
  | some b =>
    obtain ⟨i, j, hij, hi, rfl⟩ := (h.swaps_eq_some hname).1 hcase
    rw [Expr.value_replace_of_some hcase] at hxy
    exact .inr ⟨i, j, hij, Expr.sym.inj hi, (Expr.sym.inj hxy).symm⟩

theorem exists_replace_swaps (h : s.Numbered name) (hname : Function.Injective name)
    (x : String) : ∃ y, ((Expr.sym x).replace s.swaps).value = .sym y ∧
      ((Expr.sym y).replace s.swaps).value = .sym x := by
  cases hcase : s.swaps (.sym x) with
  | none =>
    have hvalue := Expr.value_replace_of_leaf hcase rfl
    exact ⟨x, hvalue, hvalue⟩
  | some b =>
    obtain ⟨i, j, hij, hi, rfl⟩ := (h.swaps_eq_some hname).1 hcase
    refine ⟨name j, Expr.value_replace_of_some hcase, ?_⟩
    rw [hi]
    apply Expr.value_replace_of_some
    exact (h.swaps_eq_some hname).2 ⟨j, i, by omega, rfl, rfl⟩

theorem eq_of_replace_swaps (h : s.Numbered name) (hname : Function.Injective name)
    {x y z : String} (hx : ((Expr.sym x).replace s.swaps).value = .sym z)
    (hy : ((Expr.sym y).replace s.swaps).value = .sym z) : x = y := by
  have hback {x : String} (hx : ((Expr.sym x).replace s.swaps).value = .sym z) :
      ((Expr.sym z).replace s.swaps).value = .sym x := by
    obtain ⟨z', hz', hback⟩ := h.exists_replace_swaps hname x
    rwa [← Expr.sym.inj (hx.symm.trans hz')] at hback
  exact Expr.sym.inj ((hback hx).symm.trans (hback hy))

theorem exists_of_mem_valueSymbols_swaps (h : s.Numbered name)
    (hname : Function.Injective name) {e : Expr} {y : String}
    (hy : y ∈ (e.replace s.swaps).value.valueSymbols) :
    ∃ x ∈ e.valueSymbols, ((Expr.sym x).replace s.swaps).value = .sym y := by
  rw [Expr.mem_valueSymbols] at hy
  rcases Expr.within_replace rfl hy with ⟨hy, hnone⟩ | ⟨a, b, ha, hab, hy⟩
  · exact ⟨y, Expr.mem_valueSymbols.2 hy, Expr.value_replace_of_leaf hnone rfl⟩
  · obtain ⟨i, j, -, rfl, rfl⟩ := (h.swaps_eq_some hname).1 hab
    rw [hy.eq_of_args rfl]
    exact ⟨name i, Expr.mem_valueSymbols.2 ha, Expr.value_replace_of_some hab⟩

theorem replace_swaps_name (h : s.Numbered name) (hname : Function.Injective name)
    {i j : Nat} (hij : i + j + 1 = s.temporaries.length) :
    ((Expr.sym (name i)).replace s.swaps).value = .sym (name j) :=
  Expr.value_replace_of_some ((h.swaps_eq_some hname).2 ⟨i, j, hij, rfl, rfl⟩)

theorem numbered_renumbered (h : s.Numbered name) (hname : Function.Injective name) :
    s.renumbered.temporaries.map (·.lhs) =
      (List.range s.renumbered.temporaries.length).map fun i => Expr.sym (name i) := by
  have hlhs : s.renumbered.temporaries.map (·.lhs) =
      (s.temporaries.map (·.lhs)).map fun e => (e.replace s.swaps).value := by
    rw [State.renumbered, List.map_map, List.map_map]
    rfl
  rw [hlhs, h, State.renumbered, List.length_map]
  apply List.ext_getElem
  · simp
  · intro k hk _
    simp only [List.length_map, List.length_reverse, List.length_range] at hk
    simp only [List.getElem_map, List.getElem_reverse, List.getElem_range, List.length_map,
      List.length_range]
    apply h.replace_swaps_name hname
    omega

end State.Numbered

namespace Consistent

theorem lhs_swaps (h : Consistent name marked s) (hname : Function.Injective name) {eq : Equation}
    (heq : eq ∈ s.program) : (replaceIn s.swaps eq).value.lhs = eq.lhs := by
  obtain ⟨hatom, hne⟩ := h.program eq heq
  rw [value_replaceIn]
  apply Expr.value_replace_of_leaf (h.isNumbered.swaps_of_ne hname hne)
  cases hlhs : eq.lhs <;> simp_all [Expr.isAtom, Expr.isOperation]

section Values

variable {K : Type} [Field K] [DecidableEq K] {calls : Calls K} {base : Memory K}

theorem scalar_unswap (h : Consistent name marked s) (hname : Function.Injective name) {x : String}
    (hx : ∀ i, x ≠ name i) : (s.unswap calls base).scalar x = base.scalar x := by
  have hnone : s.swaps (.sym x) = none :=
    h.isNumbered.swaps_of_ne hname fun i hi => hx i (Expr.sym.inj hi)
  exact congrArg (base.value calls) (Expr.value_replace_of_leaf hnone rfl)

theorem value_unswap (h : Consistent name marked s) (hname : Function.Injective name) {e : Expr}
    (he : ∀ x ∈ e.symbols, ∀ i, x ≠ name i) :
    (s.unswap calls base).value calls e = base.value calls e := by
  apply Memory.value_congr
  · exact fun x hx => h.scalar_unswap hname (he x hx)
  · exact fun _ _ => rfl

theorem value_replace_swaps (h : Consistent name marked s) (hname : Function.Injective name)
    {e : Expr} (he : e.Canonical)
    (hindices : ∀ r ∈ e.references, ∀ x ∈ Expr.symbolsOfList r.indices, ∀ i, x ≠ name i) :
    base.value calls (e.replace s.swaps).value = (s.unswap calls base).value calls e := by
  apply (h.isNumbered.naming_swaps hname).denote_replace (I := base.interpretation calls)
    (fun _ _ _ _ => rfl) _ he
  · intro a ha hwithin hnone
    cases a with
    | sym x => exact congrArg (base.value calls) (Expr.value_replace_of_leaf hnone rfl).symm
    | access f is =>
      have hmem : ⟨f, is⟩ ∈ e.references := hwithin.mem_references (List.mem_cons_self ..)
      exact (h.value_unswap hname (e := .access f is) (hindices _ hmem)).symm
    | _ => cases ha
  · intro a y hay
    obtain ⟨i, j, -, rfl, -⟩ := (h.isNumbered.swaps_eq_some hname).1 hay
    exact congrArg (base.value calls) (Expr.value_replace_of_some hay).symm

theorem holds_unswap (h : Consistent name marked s) (hname : Function.Injective name)
    (hholds : ∀ t ∈ s.renumbered.temporaries, t.Holds calls base) :
    ∀ t ∈ s.temporaries, t.Holds calls (s.unswap calls base) := by
  intro t ht x hx
  have hmem : t ∈ s.equations := List.mem_append_left _ ht
  obtain ⟨y, hy, -⟩ := h.isNumbered.exists_replace_swaps hname x
  have hscalar : (s.unswap calls base).scalar x = base.scalar y := congrArg (base.value calls) hy
  rw [hscalar, ← h.value_replace_swaps hname (h.canonical t hmem)
    fun r hr => h.indices t hmem r (List.mem_append_right _ hr)]
  apply hholds _ (List.mem_map_of_mem ht)
  rw [value_replaceIn, hx, hy]

end Values

theorem exists_of_mem_renumbered (h : Consistent name marked s) (hname : Function.Injective name)
    {e : Expr} {eq : Equation} (heq : eq ∈ s.renumbered.equations) {y : String}
    (hlhs : eq.lhs = .sym y) (hy : y ∈ (e.replace s.swaps).value.valueSymbols) :
    ∃ eq' ∈ s.equations, ∃ x, eq = (replaceIn s.swaps eq').value ∧ eq'.lhs = .sym x ∧
      x ∈ e.valueSymbols := by
  have hmap : s.renumbered.equations =
      s.equations.map fun eq => (replaceIn s.swaps eq).value := by
    rw [State.equations, State.renumbered, State.equations, List.map_append]
  rw [hmap] at heq
  obtain ⟨eq', heq', rfl⟩ := List.mem_map.1 heq
  obtain ⟨x, hx, hxy⟩ := h.isNumbered.exists_of_mem_valueSymbols_swaps hname hy
  refine ⟨eq', heq', x, rfl, ?_, hx⟩
  -- Only a scalar becomes a scalar, and different ones do not become the same.
  have hatom := h.isAtom_lhs heq'
  rw [value_replaceIn] at hlhs
  cases hlhs' : eq'.lhs with
  | sym z =>
    rw [hlhs'] at hlhs
    rw [h.isNumbered.eq_of_replace_swaps hname hlhs hxy]
  | access f is =>
    rw [hlhs', Expr.value_replace_of_leaf (h.isNumbered.swaps_of_ne hname (by simp)) rfl] at hlhs
    cases hlhs
  | _ =>
    rw [hlhs'] at hatom
    cases hatom

theorem sources_of_renumbered (h : Consistent name marked s) (hname : Function.Injective name)
    {e : Expr} {r : Reference}
    (hr : Body.Sources s.renumbered.equations r (e.replace s.swaps).value) :
    Body.Sources s.equations r e := by
  generalize he' : (e.replace s.swaps).value = e' at hr
  induction hr generalizing e with
  | element hr =>
    rw [← he'] at hr
    rcases Expr.mem_references_replace hr with hr | ⟨a, b, -, hab, hr⟩
    · exact .element hr
    · obtain ⟨i, j, -, -, rfl⟩ := (h.isNumbered.swaps_eq_some hname).1 hab
      cases hr
  | scalar heq hlhs hy _ ih =>
    rw [← he'] at hy
    obtain ⟨eq', heq', x, rfl, hlhs', hx⟩ := h.exists_of_mem_renumbered hname heq hlhs hy
    exact .scalar heq' hlhs' hx (ih rfl)

theorem drawn_of_renumbered (h : Consistent name marked s) (hname : Function.Injective name)
    {e : Expr} {r : Reference}
    (hr : Body.Drawn s.renumbered.equations r (e.replace s.swaps).value) :
    Body.Drawn s.equations r e := by
  obtain ⟨eq, heq, y, hlhs, hy, hr⟩ := hr
  obtain ⟨eq', heq', x, rfl, hlhs', hx⟩ := h.exists_of_mem_renumbered hname heq hlhs hy
  exact ⟨eq', heq', x, hlhs', hx, h.sources_of_renumbered hname hr⟩

end Consistent

theorem Unfolds.renumbered (h : Consistent name marked s) (hname : Function.Injective name)
    {eq eq₀ : Equation} (heq : eq ∈ s.program)
    (hfresh : ∀ x ∈ eq₀.rhs.symbols, ∀ i, x ≠ name i) (hunfolds : Unfolds name s eqs eq eq₀) :
    Unfolds name s.renumbered eqs (replaceIn s.swaps eq).value eq₀ where
  lhs := (h.lhs_swaps hname heq).trans hunfolds.lhs
  isIncrement := hunfolds.isIncrement
  symbols y hy := by
    obtain ⟨x, hx, hxy⟩ := h.isNumbered.exists_of_mem_valueSymbols_swaps hname hy
    rcases h.isNumbered.replace_swaps_cases hname hxy with ⟨-, rfl⟩ | ⟨i, j, -, -, rfl⟩
    · exact hunfolds.symbols y hx
    · exact .inr ⟨j, rfl⟩
  value calls base hholds := by
    have hmem : eq ∈ s.equations := List.mem_append_right _ heq
    rw [value_replaceIn, h.value_replace_swaps hname (h.canonical eq hmem)
      fun r hr => h.indices eq hmem r (List.mem_append_right _ hr)]
    rw [hunfolds.value calls _ (h.holds_unswap hname hholds), h.value_unswap hname hfresh]
  drawn r hr := hunfolds.drawn r (h.drawn_of_renumbered hname hr)

/--
A program with temporaries that computes what `eqs` does. The temporaries come in the order of their
numbers, and mention only earlier ones and no marked scalars.
-/
structure Eliminated (name : Nat → String) (marked : String → Prop) (eqs : List Equation)
    (s : State) : Prop where
  numbered : s.temporaries.map (·.lhs) =
    (List.range s.temporaries.length).map fun i => Expr.sym (name i)
  plain : ∀ t ∈ s.temporaries, t.isIncrement = false
  earlier : ∀ t ∈ s.temporaries, ∀ i, t.lhs = .sym (name i) → ∀ j, i ≤ j →
    name j ∉ t.rhs.valueSymbols
  unmarked : ∀ t ∈ s.temporaries, ∀ x ∈ t.rhs.valueSymbols, ¬ marked x
  program : List.Forall₂ (Unfolds name s eqs) s.program eqs

theorem Consistent.eliminated_renumbered (h : Consistent name marked s)
    (hname : Function.Injective name) (hmarked : ∀ i, ¬ marked (name i))
    (hfresh : ∀ eq ∈ eqs, ∀ x ∈ eq.rhs.symbols, ∀ i, x ≠ name i)
    (hprogram : List.Forall₂ (Unfolds name s eqs) s.program eqs) :
    Eliminated name marked eqs s.renumbered := by
  constructor
  case numbered => exact h.isNumbered.numbered_renumbered hname
  case plain =>
    intro t ht
    obtain ⟨t', ht', rfl⟩ := List.mem_map.1 ht
    exact h.plain t' ht'
  case earlier =>
    intro t ht i hi j hij hmem
    obtain ⟨t', ht', rfl⟩ := List.mem_map.1 ht
    obtain ⟨k, hk, hlhs⟩ := h.isNumbered.exists_number ht'
    obtain ⟨x, hx, hxj⟩ := h.isNumbered.exists_of_mem_valueSymbols_swaps hname hmem
    have hki : s.temporaries.length - 1 - k = i := by
      rw [value_replaceIn, hlhs, h.isNumbered.replace_swaps_name hname
        (j := s.temporaries.length - 1 - k) (by omega)] at hi
      exact hname (Expr.sym.inj hi)
    rcases h.isNumbered.replace_swaps_cases hname hxj with ⟨hnone, rfl⟩ | ⟨k', j', hkj, rfl, hj⟩
    · have hlt : ¬ j < s.temporaries.length := by
        intro hlt
        have hsome := (h.isNumbered.swaps_eq_some hname).2
          ⟨j, s.temporaries.length - 1 - j, by omega, rfl, rfl⟩
        rw [hnone] at hsome
        cases hsome
      exact h.fresh t' (List.mem_append_left _ ht') j (by omega) hx
    · have := hname hj
      exact h.later t' ht' k hlhs k' (by omega) hx
  case unmarked =>
    intro t ht y hy
    obtain ⟨t', ht', rfl⟩ := List.mem_map.1 ht
    obtain ⟨x, hx, hxy⟩ := h.isNumbered.exists_of_mem_valueSymbols_swaps hname hy
    rcases h.isNumbered.replace_swaps_cases hname hxy with ⟨-, rfl⟩ | ⟨i, j, -, -, rfl⟩
    · exact h.unmarked t' ht' y hx
    · exact hmarked j
  case program =>
    rw [State.renumbered, List.forall₂_map_left_iff]
    exact forall₂_imp_of_mem hprogram fun eq heq eq₀ heq₀ hunfolds =>
      hunfolds.renumbered h hname heq (hfresh eq₀ heq₀)

theorem exists_eliminated (hname : Function.Injective name) (hmarked : ∀ i, ¬ marked (name i))
    (h : Consistent name marked ⟨[], eqs⟩)
    (hfresh : ∀ eq ∈ eqs, ∀ x ∈ eq.rhs.symbols, ∀ i, x ≠ name i) :
    ∃ s : State, (eliminate (fun i => .sym (name i)) eqs).value = s.equations ∧
      Eliminated name marked eqs s := by
  obtain ⟨hconsistent, hprogram⟩ := eliminate_unfolds hname hmarked h
    ((⟨[], eqs⟩ : State).operations.length + 1)
  refine ⟨State.renumbered _, ?_,
    hconsistent.eliminated_renumbered hname hmarked hfresh hprogram⟩
  rw [State.equations_renumbered, eliminate, Checked.value_bind]

end Temporaries

end Stencil
