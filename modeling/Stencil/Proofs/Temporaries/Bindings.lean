import Stencil.Proofs.Optimization

/-!
This module contains the result of the elimination of common subexpressions in closed form. It is
determined by the operations that are bound to temporaries, in the order in which they are taken. In
the program all of them are replaced, and in the operation of a temporary those that are taken
later.
-/

namespace Stencil

namespace Temporaries

def lookup (bs : List (Expr × Expr)) (e : Expr) : Option Expr := bs.lookup e

def definitions : List (Expr × Expr) → List Equation
  | [] => []
  | b :: bs => ⟨b.2, (b.1.replace (lookup bs)).value, false⟩ :: definitions bs

theorem lookup_cons_self (a b : Expr) (bs : List (Expr × Expr)) :
    lookup ((a, b) :: bs) a = some b :=
  List.lookup_cons_self

theorem lookup_cons_of_ne {a k : Expr} (h : a ≠ k) (v : Expr) (bs : List (Expr × Expr)) :
    lookup ((k, v) :: bs) a = lookup bs a := by
  unfold lookup
  rw [List.lookup_cons, beq_eq_false_iff_ne.2 h]

theorem lookup_append (bs cs : List (Expr × Expr)) (a : Expr) :
    lookup (bs ++ cs) a = (lookup bs a).or (lookup cs a) :=
  List.lookup_append

theorem mem_of_lookup {bs : List (Expr × Expr)} {a b : Expr} (h : lookup bs a = some b) :
    (a, b) ∈ bs := by
  obtain ⟨before, after, rfl, -⟩ := List.lookup_eq_some_iff.1 h
  exact List.mem_append_right _ (List.mem_cons_self ..)

theorem lookup_map (f : Expr → Expr) (bs : List (Expr × Expr)) (a : Expr) :
    lookup (bs.map fun b => (b.1, f b.2)) a = (lookup bs a).map f := by
  induction bs with
  | nil => rfl
  | cons b bs ih =>
    obtain ⟨k, v⟩ := b
    rw [List.map_cons]
    by_cases hak : a = k
    · rw [hak, lookup_cons_self, lookup_cons_self]
      rfl
    · rw [lookup_cons_of_ne hak, lookup_cons_of_ne hak, ih]

theorem lookup_eq_some_iff {bs : List (Expr × Expr)} (hnodup : (bs.map (·.1)).Nodup)
    {a b : Expr} : lookup bs a = some b ↔ (a, b) ∈ bs := by
  induction bs with
  | nil => simp [lookup]
  | cons c bs ih =>
    obtain ⟨k, v⟩ := c
    rw [List.map_cons, List.nodup_cons] at hnodup
    rw [List.mem_cons, Prod.mk.injEq]
    by_cases hak : a = k
    · subst hak
      have hnot : (a, b) ∉ bs := fun hmem => hnodup.1 (List.mem_map_of_mem (f := (·.1)) hmem)
      simp [lookup_cons_self, hnot, eq_comm]
    · rw [lookup_cons_of_ne hak, ih hnodup.2]
      simp [hak]

theorem names_eq_lookup (name : Nat → String) (s : State) :
    s.names name = lookup (s.bind (fun i => .sym (name i)) s.targets) := by
  have hnodup := s.nodup_bind fun i => Expr.sym (name i)
  funext a
  apply Option.ext
  intro b
  rw [State.names, OrdMap.find?_ofList_iff hnodup, lookup_eq_some_iff hnodup]

def BindsNames (bs : List (Expr × Expr)) : Prop :=
  ∀ b ∈ bs, b.1.isOperation = true ∧ ∃ s, b.2 = .sym s

namespace BindsNames

variable {bs : List (Expr × Expr)}

theorem of_cons {b : Expr × Expr} (h : BindsNames (b :: bs)) : BindsNames bs :=
  (List.forall_mem_cons.1 h).2

theorem append {cs : List (Expr × Expr)} (hbs : BindsNames bs) (hcs : BindsNames cs) :
    BindsNames (bs ++ cs) :=
  List.forall_mem_append.2 ⟨hbs, hcs⟩

theorem lookup_of_not_isOperation (h : BindsNames bs) {e : Expr} (he : e.isOperation = false) :
    lookup bs e = none := by
  cases hcase : lookup bs e with
  | none => rfl
  | some b =>
    have hop := (h _ (mem_of_lookup hcase)).1
    rw [he] at hop
    cases hop

theorem naming (h : BindsNames bs) : Expr.Naming (lookup bs) := by
  intro a b hab
  obtain ⟨hop, s, hs⟩ := h _ (mem_of_lookup hab)
  exact ⟨by cases a <;> simp_all [Expr.isOperation, Expr.isNumber], s, hs⟩

theorem replace_of_not_isOperation (h : BindsNames bs) {e : Expr} (he : e.isOperation = false) :
    (e.replace (lookup bs)).value = e :=
  Expr.value_replace_of_leaf (h.lookup_of_not_isOperation he) he

theorem mem_valueSymbols_replace {e : Expr} {x : String}
    (h : BindsNames bs) (hx : x ∈ (e.replace (lookup bs)).value.valueSymbols) :
    x ∈ e.valueSymbols ∨ ∃ b ∈ bs, b.2 = .sym x := by
  rw [Expr.mem_valueSymbols] at hx ⊢
  rcases Expr.within_replace rfl hx with ⟨hx, -⟩ | ⟨a, b, -, hab, hx⟩
  · exact .inl hx
  · obtain ⟨-, s, hs⟩ := h _ (mem_of_lookup hab)
    have hb : b = .sym s := hs
    rw [hb] at hx hab
    rw [← hx.eq_of_args rfl] at hab
    exact .inr ⟨_, mem_of_lookup hab, rfl⟩

end BindsNames

structure Apart (bs cs : List (Expr × Expr)) : Prop where
  keys : ∀ c ∈ cs, ∀ b ∈ bs, ¬ b.1.Within c.1
  names : ∀ c ∈ cs, ∀ b ∈ bs, ¬ b.2.Within c.1

theorem Apart.of_cons {b : Expr × Expr} {bs cs : List (Expr × Expr)} (h : Apart (b :: bs) cs) :
    Apart bs cs where
  keys c hc d hd := h.keys c hc d (List.mem_cons_of_mem _ hd)
  names c hc d hd := h.names c hc d (List.mem_cons_of_mem _ hd)

/-- An expression that is rebuilt as it is: a canonical one, or one that is no operation. -/
def IsStable (e : Expr) : Prop := e.isOperation = false ∨ e.Canonical

section Append

variable {bs cs : List (Expr × Expr)} (hbs : BindsNames bs) (hcs : BindsNames cs)
  (hapart : Apart bs cs)

include hbs hcs hapart

theorem composes_append {e : Expr} (he : e.Canonical) :
    Expr.Composes (lookup bs) (lookup cs) (lookup (bs ++ cs)) e := by
  constructor
  · intro a s _ hs
    have hsome : lookup (bs ++ cs) a = some (.sym s) := by
      rw [lookup_append, hs]
      rfl
    rw [Expr.value_replace_of_some hsome, hcs.replace_of_not_isOperation rfl]
  · intro a ha hnone
    have hcanonical := he.of_within ha
    rw [lookup_append, hnone, Option.none_or]
    by_cases hself : (a.replace (lookup bs)).value = a
    · rw [hself]
    · -- What is bound later contains nothing of what is bound first, and none of its names.
      have hkey : lookup cs a = none := by
        cases hcase : lookup cs a with
        | none => rfl
        | some c =>
          refine absurd (hcanonical.replace_eq_self fun x hx => ?_) hself
          cases hlookup : lookup bs x with
          | none => rfl
          | some b =>
            exact absurd hx (hapart.keys _ (mem_of_lookup hcase) _ (mem_of_lookup hlookup))
      have hreplaced : lookup cs (a.replace (lookup bs)).value = none := by
        cases hcase : lookup cs (a.replace (lookup bs)).value with
        | none => rfl
        | some c =>
          refine absurd (hbs.naming.replace_eq_self hcanonical fun x s hs hwithin => ?_) hself
          exact hapart.names _ (mem_of_lookup hcase) _ (mem_of_lookup hs) hwithin
      rw [hkey, hreplaced]

theorem replace_append {e : Expr} (he : IsStable e) :
    ((e.replace (lookup bs)).value.replace (lookup cs)).value =
      (e.replace (lookup (bs ++ cs))).value := by
  rcases he with hleaf | hcanonical
  · rw [hbs.replace_of_not_isOperation hleaf, hcs.replace_of_not_isOperation hleaf,
      (hbs.append hcs).replace_of_not_isOperation hleaf]
  · exact (composes_append hbs hcs hapart hcanonical).value_replace hbs.naming hcanonical

end Append

theorem definitions_eq_map {bs : List (Expr × Expr)} (hcanonical : ∀ b ∈ bs, b.1.Canonical)
    (hpairwise : bs.Pairwise fun b c => ¬ c.1.Within b.1) :
    definitions bs = bs.map fun b => ⟨b.2, b.1, false⟩ := by
  induction hpairwise with
  | nil => rfl
  | @cons b bs hb _ ih =>
    obtain ⟨hkey, hkeys⟩ := List.forall_mem_cons.1 hcanonical
    have hself : (b.1.replace (lookup bs)).value = b.1 := by
      apply hkey.replace_eq_self
      intro x hx
      cases hcase : lookup bs x with
      | none => rfl
      | some c => exact absurd hx (hb _ (mem_of_lookup hcase))
    rw [definitions, ih hkeys, hself, List.map_cons]

theorem definitions_append {bs cs : List (Expr × Expr)} (hbs : BindsNames bs)
    (hcs : BindsNames cs) (hapart : Apart bs cs) (hcanonical : ∀ b ∈ bs, b.1.Canonical) :
    definitions (bs ++ cs) =
      (definitions bs).map (fun t => (replaceIn (lookup cs) t).value) ++ definitions cs := by
  induction bs with
  | nil => rfl
  | cons b bs ih =>
    obtain ⟨⟨-, s, hs⟩, hbs⟩ := List.forall_mem_cons.1 hbs
    obtain ⟨hkey, hkeys⟩ := List.forall_mem_cons.1 hcanonical
    rw [List.cons_append, definitions, definitions, List.map_cons, List.cons_append,
      ih hbs hapart.of_cons hkeys, value_replaceIn,
      replace_append hbs hcs hapart.of_cons (.inr hkey), hs, hcs.replace_of_not_isOperation rfl]

section Rename

variable {bs : List (Expr × Expr)} {τ : Expr → Option Expr}

def renamed (τ : Expr → Option Expr) (bs : List (Expr × Expr)) : List (Expr × Expr) :=
  bs.map fun b => (b.1, (b.2.replace τ).value)

variable (hbs : BindsNames bs) (hτ : ∀ a b, τ a = some b → ∃ s, a = .sym s)

include hbs hτ

theorem composes_renamed {e : Expr} (he : e.Canonical)
    (hfresh : ∀ s ∈ e.valueSymbols, τ (.sym s) = none) :
    Expr.Composes (lookup bs) τ (lookup (renamed τ bs)) e := by
  have hlookup (a : Expr) : lookup (renamed τ bs) a =
      (lookup bs a).map fun b => (b.replace τ).value :=
    lookup_map (fun b => (b.replace τ).value) bs a
  constructor
  · intro a s _ hs
    apply Expr.value_replace_of_some
    rw [hlookup, hs]
    rfl
  · intro a ha hnone
    rw [hlookup, hnone, Option.map_none]
    symm
    cases hcase : τ (a.replace (lookup bs)).value with
    | none => rfl
    | some b =>
      obtain ⟨s, hs⟩ := hτ _ b hcase
      obtain rfl := hbs.naming.eq_sym_of_replace (he.of_within ha) hnone hs
      rw [hs, hfresh s (Expr.mem_valueSymbols.2 ha)] at hcase
      cases hcase

theorem replace_renamed {e : Expr} (he : IsStable e)
    (hbs' : BindsNames (renamed τ bs)) (hfresh : ∀ s ∈ e.valueSymbols, τ (.sym s) = none) :
    ((e.replace (lookup bs)).value.replace τ).value =
      (e.replace (lookup (renamed τ bs))).value := by
  rcases he with hleaf | hcanonical
  · have hnone : τ e = none := by
      cases hcase : τ e with
      | none => rfl
      | some b =>
        obtain ⟨s, rfl⟩ := hτ e b hcase
        rw [hfresh s (List.mem_singleton_self s)] at hcase
        cases hcase
    rw [hbs.replace_of_not_isOperation hleaf, hbs'.replace_of_not_isOperation hleaf,
      Expr.value_replace_of_leaf hnone hleaf]
  · exact (composes_renamed hbs hτ hcanonical hfresh).value_replace hbs.naming hcanonical

end Rename

theorem definitions_renamed {bs : List (Expr × Expr)} {τ : Expr → Option Expr}
    (hbs : BindsNames bs) (hτ : ∀ a b, τ a = some b → ∃ s, a = .sym s)
    (hkeys : ∀ b ∈ bs, b.1.Canonical ∧ ∀ s ∈ b.1.valueSymbols, τ (.sym s) = none) :
    definitions (renamed τ bs) = (definitions bs).map fun t => (replaceIn τ t).value := by
  induction bs with
  | nil => rfl
  | cons b bs ih =>
    have hbs := hbs.of_cons
    obtain ⟨⟨hkey, hfresh⟩, hkeys⟩ := List.forall_mem_cons.1 hkeys
    have hrest := ih hbs hkeys
    have hvalue := (composes_renamed hbs hτ hkey hfresh).value_replace hbs.naming hkey
    unfold renamed at hrest hvalue ⊢
    rw [List.map_cons, definitions, definitions, List.map_cons, hrest, value_replaceIn, hvalue]

/--
Right-hand sides are canonical, and the names of temporaries are different ones that occur nowhere.
-/
structure Admissible (name : Nat → String) (eqs : List Equation) : Prop where
  injective : Function.Injective name
  canonical : ∀ eq ∈ eqs, eq.rhs.Canonical
  unnamed : ∀ eq ∈ eqs, ∀ x ∈ eq.lhs.symbols ++ eq.rhs.symbols, ∀ i, x ≠ name i

structure Reduces (bs : List (Expr × Expr)) (eq eq₀ : Equation) : Prop where
  lhs : IsStable eq₀.lhs → eq.lhs = (eq₀.lhs.replace (lookup bs)).value
  rhs : eq.rhs = (eq₀.rhs.replace (lookup bs)).value
  isIncrement : eq.isIncrement = eq₀.isIncrement

structure Takes (name : Nat → String) (eqs : List Equation) (bs : List (Expr × Expr)) : Prop where
  operation : ∀ b ∈ bs, b.1 ∈ eqs.flatMap fun eq => eq.rhs.operations
  names : (bs.map (·.2)).Perm ((List.range bs.length).map fun i => Expr.sym (name i))

/--
The state in which the operations of `bs` have been taken. They are no longer repeated, and what is
repeated is so in `eqs`.
-/
structure Unrolled (name : Nat → String) (eqs : List Equation) (bs : List (Expr × Expr))
    (s : State) : Prop extends Takes name eqs bs where
  temporaries : s.temporaries = (definitions bs).reverse
  program : List.Forall₂ (Reduces bs) s.program eqs
  numbered : bs.map (·.2) = (List.range bs.length).map fun i => Expr.sym (name i)
  once : ∀ b ∈ bs, s.operations.count b.1 ≤ 1
  repeated : ∀ o, 1 < s.operations.count o → 1 < (eqs.flatMap fun eq => eq.rhs.operations).count o

theorem map_lhs_definitions (bs : List (Expr × Expr)) :
    (definitions bs).map (·.lhs) = bs.map (·.2) := by
  induction bs with
  | nil => rfl
  | cons b bs ih => rw [definitions, List.map_cons, List.map_cons, ih]

theorem length_definitions (bs : List (Expr × Expr)) : (definitions bs).length = bs.length := by
  have h := congrArg List.length (map_lhs_definitions bs)
  rwa [List.length_map, List.length_map] at h

theorem exists_of_mem_definitions {bs : List (Expr × Expr)} {t : Equation}
    (ht : t ∈ definitions bs) :
    ∃ b ∈ bs, ∃ cs, cs ⊆ bs ∧ t = ⟨b.2, (b.1.replace (lookup cs)).value, false⟩ := by
  induction bs with
  | nil => cases ht
  | cons b bs ih =>
    rcases List.mem_cons.1 ht with rfl | ht
    · exact ⟨b, List.mem_cons_self .., bs, List.subset_cons_self .., rfl⟩
    · obtain ⟨c, hc, cs, hcs, rfl⟩ := ih ht
      exact ⟨c, List.mem_cons_of_mem _ hc, cs, List.subset_cons_of_subset _ hcs, rfl⟩

namespace Admissible

variable {name : Nat → String} {eqs : List Equation}

theorem canonical_of_mem_operations (h : Admissible name eqs) {o : Expr}
    (ho : o ∈ eqs.flatMap fun eq => eq.rhs.operations) : o.Canonical := by
  obtain ⟨eq, heq, ho⟩ := List.mem_flatMap.1 ho
  exact (h.canonical eq heq).of_within (Expr.mem_operations.1 ho).2

theorem unnamed_of_mem_operations (h : Admissible name eqs) {o : Expr}
    (ho : o ∈ eqs.flatMap fun eq => eq.rhs.operations) (i : Nat) : name i ∉ o.symbols := by
  obtain ⟨eq, heq, ho⟩ := List.mem_flatMap.1 ho
  intro hi
  have hmem := (Expr.mem_operations.1 ho).2.mem_symbols hi
  exact h.unnamed eq heq _ (List.mem_append_right _ hmem) i rfl

theorem notMem_valueSymbols_rhs (h : Admissible name eqs) {eq : Equation} (heq : eq ∈ eqs)
    (i : Nat) : name i ∉ eq.rhs.valueSymbols := by
  intro hi
  exact h.unnamed eq heq _ (List.mem_append_right _ (Expr.mem_symbols.2 (.inl hi))) i rfl

theorem notMem_valueSymbols_lhs (h : Admissible name eqs) {eq : Equation} (heq : eq ∈ eqs)
    (i : Nat) : name i ∉ eq.lhs.valueSymbols := by
  intro hi
  exact h.unnamed eq heq _ (List.mem_append_left _ (Expr.mem_symbols.2 (.inl hi))) i rfl

end Admissible

theorem Reduces.append {bs cs : List (Expr × Expr)} (hbs : BindsNames bs) (hcs : BindsNames cs)
    (hapart : Apart bs cs) {eq eq₀ : Equation} (hcanonical : eq₀.rhs.Canonical)
    (h : Reduces bs eq eq₀) : Reduces (bs ++ cs) (replaceIn (lookup cs) eq).value eq₀ where
  lhs hstable := by
    rw [value_replaceIn, h.lhs hstable]
    exact replace_append hbs hcs hapart hstable
  rhs := by
    rw [value_replaceIn, h.rhs]
    exact replace_append hbs hcs hapart (.inr hcanonical)
  isIncrement := h.isIncrement

namespace Takes

variable {name : Nat → String} {eqs : List Equation} {bs : List (Expr × Expr)}

theorem exists_number (h : Takes name eqs bs) {b : Expr × Expr} (hb : b ∈ bs) :
    ∃ i < bs.length, b.2 = .sym (name i) := by
  have hmem := h.names.mem_iff.1 (List.mem_map_of_mem (f := Prod.snd) hb)
  obtain ⟨i, hi, heq⟩ := List.mem_map.1 hmem
  exact ⟨i, List.mem_range.1 hi, heq.symm⟩

theorem bindsNames (h : Takes name eqs bs) : BindsNames bs := by
  intro b hb
  obtain ⟨eq, -, ho⟩ := List.mem_flatMap.1 (h.operation b hb)
  obtain ⟨i, -, hi⟩ := h.exists_number hb
  exact ⟨(Expr.mem_operations.1 ho).1, _, hi⟩

theorem nodup (h : Takes name eqs bs) (hname : Function.Injective name) :
    (bs.map (·.2)).Nodup := by
  rw [h.names.nodup_iff]
  apply List.Nodup.map _ List.nodup_range
  exact fun i j hij => hname (Expr.sym.inj hij)

end Takes

namespace Unrolled

variable {name : Nat → String} {eqs : List Equation} {bs : List (Expr × Expr)} {s : State}

theorem length_temporaries (hs : Unrolled name eqs bs s) : s.temporaries.length = bs.length := by
  rw [hs.temporaries, List.length_reverse, length_definitions]

theorem isNumbered (hs : Unrolled name eqs bs s) : s.Numbered name := by
  rw [State.Numbered, hs.length_temporaries, hs.temporaries, List.map_reverse,
    map_lhs_definitions, hs.numbered]

theorem exists_rhs_eq (h : Admissible name eqs) (hs : Unrolled name eqs bs s) {eq : Equation}
    (heq : eq ∈ s.equations) : ∃ e : Expr, ∃ cs, cs ⊆ bs ∧ e.Canonical ∧
      (∀ i, name i ∉ e.valueSymbols) ∧ eq.rhs = (e.replace (lookup cs)).value := by
  rcases List.mem_append.1 heq with ht | hprogram
  · rw [hs.temporaries, List.mem_reverse] at ht
    obtain ⟨b, hb, cs, hcs, rfl⟩ := exists_of_mem_definitions ht
    have hmem := hs.operation b hb
    refine ⟨b.1, cs, hcs, h.canonical_of_mem_operations hmem, fun i hi => ?_, rfl⟩
    exact h.unnamed_of_mem_operations hmem i (Expr.mem_symbols.2 (.inl hi))
  · obtain ⟨eq₀, heq₀, hreduces⟩ := exists_mem_right hs.program hprogram
    exact ⟨eq₀.rhs, bs, List.Subset.refl bs, h.canonical eq₀ heq₀,
      h.notMem_valueSymbols_rhs heq₀, hreduces.rhs⟩

theorem regular (h : Admissible name eqs) (hs : Unrolled name eqs bs s) : s.Regular name := by
  constructor
  · intro eq heq
    obtain ⟨e, cs, hcs, hcanonical, -, hrhs⟩ := hs.exists_rhs_eq h heq
    have hnames : BindsNames cs := fun b hb => hs.bindsNames b (hcs hb)
    rw [hrhs]
    exact hnames.naming.canonical_replace hcanonical
  · intro eq heq i hi hmem
    obtain ⟨e, cs, hcs, -, hunnamed, hrhs⟩ := hs.exists_rhs_eq h heq
    have hnames : BindsNames cs := fun b hb => hs.bindsNames b (hcs hb)
    rw [hrhs] at hmem
    rcases hnames.mem_valueSymbols_replace hmem with hmem | ⟨b, hb, hname⟩
    · exact hunnamed i hmem
    · obtain ⟨j, hj, hlhs⟩ := hs.exists_number (hcs hb)
      have := h.injective (Expr.sym.inj (hname.symm.trans hlhs))
      rw [hs.length_temporaries] at hi
      omega

theorem mem_operations_of_mem_targets (hs : Unrolled name eqs bs s) {o : Expr}
    (ho : o ∈ s.targets) : o ∈ eqs.flatMap fun eq => eq.rhs.operations :=
  List.count_pos_iff.1 (Nat.zero_lt_of_lt (hs.repeated o (State.mem_targets.1 ho).1))

theorem bindsNames_bind : BindsNames (s.bind (fun i => .sym (name i)) s.targets) := by
  intro b hb
  obtain ⟨htarget, i, hi⟩ := State.exists_target_of_mem_bind hb
  have hmem := State.mem_operations_of_mem_targets htarget
  exact ⟨(State.exists_within_of_mem_operations hmem).1, name i, hi⟩

theorem apart (h : Admissible name eqs) (hs : Unrolled name eqs bs s) :
    Apart bs (s.bind (fun i => .sym (name i)) s.targets) where
  keys c hc b hb hwithin := by
    have htarget := (State.exists_target_of_mem_bind hc).1
    have hmem : b.1 ∈ c.1.operations :=
      Expr.mem_operations.2 ⟨(hs.bindsNames b hb).1, hwithin⟩
    have hle : s.operations.count c.1 ≤ s.operations.count b.1 :=
      Expr.count_flatMap_le fun eq heq =>
        Expr.count_operations_le ((hs.regular h).canonical eq heq) hmem
    have := hs.once b hb
    have := (State.mem_targets.1 htarget).1
    omega
  names c hc b hb hwithin := by
    obtain ⟨i, -, hi⟩ := hs.exists_number hb
    rw [hi, ← Expr.mem_valueSymbols] at hwithin
    have hmem := hs.mem_operations_of_mem_targets (State.exists_target_of_mem_bind hc).1
    exact h.unnamed_of_mem_operations hmem i (Expr.mem_symbols.2 (.inl hwithin))

theorem definitions_bind (h : Admissible name eqs) (hs : Unrolled name eqs bs s) :
    definitions (s.bind (fun i => .sym (name i)) s.targets) =
      (s.bind (fun i => .sym (name i)) s.targets).map fun b => ⟨b.2, b.1, false⟩ := by
  apply definitions_eq_map
  · intro b hb
    exact h.canonical_of_mem_operations
      (hs.mem_operations_of_mem_targets (State.exists_target_of_mem_bind hb).1)
  · have hnodup := s.nodup_bind fun i => Expr.sym (name i)
    rw [List.Nodup, List.pairwise_map] at hnodup
    apply hnodup.imp_of_mem
    intro b c hb hc hne hwithin
    exact hne ((hs.regular h).eq_of_within_target (State.exists_target_of_mem_bind hc).1
      (State.exists_target_of_mem_bind hb).1 hwithin).symm

theorem next (h : Admissible name eqs) (hs : Unrolled name eqs bs s) :
    Unrolled name eqs (bs ++ s.bind (fun i => .sym (name i)) s.targets)
      (s.next fun i => .sym (name i)) := by
  have hregular := hs.regular h
  have hnumbered : (bs ++ s.bind (fun i => Expr.sym (name i)) s.targets).map (·.2) =
      (List.range (bs ++ s.bind (fun i => Expr.sym (name i)) s.targets).length).map
        fun i => Expr.sym (name i) := by
    have hlength : (s.bind (fun i => Expr.sym (name i)) s.targets).length = s.targets.length := by
      rw [State.bind, List.length_map, List.length_zipIdx]
    rw [List.map_append, hs.numbered, State.map_snd_bind, hs.length_temporaries,
      List.length_append, hlength, List.range_add, List.map_append, List.map_map]
    rfl
  constructor
  case temporaries =>
    have hkeys : ∀ b ∈ bs, b.1.Canonical :=
      fun b hb => h.canonical_of_mem_operations (hs.operation b hb)
    rw [State.temporaries_next, names_eq_lookup, hs.temporaries,
      definitions_append hs.bindsNames bindsNames_bind (hs.apart h) hkeys,
      hs.definitions_bind h, List.reverse_append, List.map_reverse, List.map_reverse]
  case program =>
    rw [State.program_next, names_eq_lookup, List.forall₂_map_left_iff]
    exact forall₂_imp_of_mem hs.program fun eq _ eq₀ heq₀ hreduces =>
      hreduces.append hs.bindsNames bindsNames_bind (hs.apart h) (h.canonical eq₀ heq₀)
  case toTakes =>
    refine ⟨List.forall_mem_append.2 ⟨hs.operation, fun b hb => ?_⟩, .of_eq hnumbered⟩
    exact hs.mem_operations_of_mem_targets (State.exists_target_of_mem_bind hb).1
  case numbered => exact hnumbered
  case once =>
    intro b hb
    by_contra hcount
    obtain ⟨hrepeated, htarget⟩ :=
      hregular.repeated_of_next h.injective (Nat.lt_of_not_le hcount)
    rcases List.mem_append.1 hb with hb | hb
    · have := hs.once b hb
      omega
    · exact htarget (State.exists_target_of_mem_bind hb).1
  case repeated =>
    intro o ho
    exact hs.repeated o (hregular.repeated_of_next h.injective ho).1

end Unrolled

section Eliminate

variable {name : Nat → String} {eqs : List Equation}

theorem Admissible.unrolled (h : Admissible name eqs) : Unrolled name eqs [] ⟨[], eqs⟩ where
  temporaries := rfl
  program := by
    refine List.forall₂_same.2 fun eq heq => ⟨fun hstable => ?_, ?_, rfl⟩
    · rcases hstable with hleaf | hcanonical
      · exact (Expr.value_replace_of_leaf rfl hleaf).symm
      · exact (Expr.value_replace_none hcanonical).symm
    · exact (Expr.value_replace_none (h.canonical eq heq)).symm
  numbered := rfl
  names := .refl _
  operation := by simp
  once := by simp
  repeated _ ho := ho

theorem Admissible.exists_unrolled (h : Admissible name eqs) (fuel : Nat) :
    ∃ bs, Unrolled name eqs bs
      (State.eliminate (fun i => .sym (name i)) fuel ⟨[], eqs⟩).value := by
  apply State.eliminate_induct (motive := fun s => ∃ bs, Unrolled name eqs bs s)
  · rintro s - ⟨bs, hs⟩
    exact ⟨_, hs.next h⟩
  · exact ⟨[], h.unrolled⟩

theorem Unrolled.exists_renumber (h : Admissible name eqs) {bs : List (Expr × Expr)} {s : State}
    (hs : Unrolled name eqs bs s) :
    ∃ bs rest, s.renumber.value = (definitions bs).reverse ++ rest ∧ Takes name eqs bs ∧
      (bs.map (·.2)).reverse = (List.range bs.length).map (fun i => Expr.sym (name i)) ∧
      List.Forall₂ (Reduces bs) rest eqs := by
  have hnumbered := hs.isNumbered
  have hτ : ∀ a b, s.swaps a = some b → ∃ x, a = .sym x := by
    intro a b hab
    obtain ⟨i, j, -, rfl, -⟩ := (hnumbered.swaps_eq_some h.injective).1 hab
    exact ⟨_, rfl⟩
  have hfresh {e : Expr} (he : ∀ i, name i ∉ e.valueSymbols) :
      ∀ x ∈ e.valueSymbols, s.swaps (.sym x) = none := by
    intro x hx
    apply hnumbered.swaps_of_ne h.injective
    intro i hi
    exact he i (Expr.sym.inj hi ▸ hx)
  have hkeys : ∀ b ∈ bs, b.1.Canonical ∧ ∀ x ∈ b.1.valueSymbols, s.swaps (.sym x) = none := by
    intro b hb
    have hmem := hs.operation b hb
    refine ⟨h.canonical_of_mem_operations hmem, hfresh fun i hi => ?_⟩
    exact h.unnamed_of_mem_operations hmem i (Expr.mem_symbols.2 (.inl hi))
  have htemporaries : s.renumbered.temporaries = (definitions (renamed s.swaps bs)).reverse := by
    rw [State.renumbered, hs.temporaries, definitions_renamed hs.bindsNames hτ hkeys,
      List.map_reverse]
  have hlhs : ((renamed s.swaps bs).map (·.2)).reverse =
      (List.range (renamed s.swaps bs).length).map fun i => Expr.sym (name i) := by
    have hlhs := hnumbered.numbered_renumbered h.injective
    rwa [htemporaries, List.map_reverse, map_lhs_definitions, List.length_reverse,
      length_definitions] at hlhs
  have htakes : Takes name eqs (renamed s.swaps bs) := by
    refine ⟨fun c hc => ?_, hlhs ▸ (List.reverse_perm _).symm⟩
    obtain ⟨b, hb, rfl⟩ := List.mem_map.1 hc
    exact hs.operation b hb
  refine ⟨renamed s.swaps bs, s.renumbered.program, ?_, htakes, hlhs, ?_⟩
  · rw [← State.equations_renumbered, State.equations, htemporaries]
  · rw [State.renumbered, List.forall₂_map_left_iff]
    refine forall₂_imp_of_mem hs.program fun eq _ eq₀ heq₀ hreduces => ⟨fun hstable => ?_, ?_, ?_⟩
    · rw [value_replaceIn, hreduces.lhs hstable]
      exact replace_renamed hs.bindsNames hτ hstable htakes.bindsNames
        (hfresh (h.notMem_valueSymbols_lhs heq₀))
    · rw [value_replaceIn, hreduces.rhs]
      exact replace_renamed hs.bindsNames hτ (.inr (h.canonical eq₀ heq₀)) htakes.bindsNames
        (hfresh (h.notMem_valueSymbols_rhs heq₀))
    · exact hreduces.isIncrement

theorem Admissible.exists_eliminate (h : Admissible name eqs) :
    ∃ bs rest, (eliminate (fun i => .sym (name i)) eqs).value = (definitions bs).reverse ++ rest ∧
      Takes name eqs bs ∧
      (bs.map (·.2)).reverse = (List.range bs.length).map (fun i => Expr.sym (name i)) ∧
      List.Forall₂ (Reduces bs) rest eqs := by
  obtain ⟨bs, hs⟩ := h.exists_unrolled ((⟨[], eqs⟩ : State).operations.length + 1)
  exact hs.exists_renumber h

end Eliminate

section Nested

open Optimization

/--
`u[x] = s + p * (v[x] + w[x]); z[x] = 2 + p * (v[x] + w[x]); y[x] += q * (v[x] + w[x])`, in which a
repeated operation is part of another one.
-/
def nested : List Equation :=
  let inner := Expr.add [element "v", element "w"]
  [⟨element "u", .add [.sym "s", .mul [.sym "p", inner]], false⟩,
    ⟨element "z", .add [.num 2, .mul [.sym "p", inner]], false⟩,
    ⟨element "y", .mul [.sym "q", inner], true⟩]

theorem admissible_nested : Admissible (fun i => s!"r{i}") nested where
  injective i j hij := temporary_injective (congrArg Expr.sym hij)
  canonical := by
    have hinner : (Expr.add [element "v", element "w"]).Canonical := by
      refine .add (by simp [canonical_element]) ⟨?_, ?_, ?_, ?_, ?_⟩ <;> decide +kernel
    have hproduct (s : String) (h : Expr.Arguments Expr.isProduct [0, 1]
        [.sym s, .add [element "v", element "w"]]) :
        (Expr.mul [.sym s, .add [element "v", element "w"]]).Canonical :=
      .mul (by simp [Expr.Canonical.sym, hinner]) h
    have hp : (Expr.mul [.sym "p", .add [element "v", element "w"]]).Canonical := by
      refine hproduct "p" ⟨?_, ?_, ?_, ?_, ?_⟩ <;> decide +kernel
    simp only [nested, List.forall_mem_cons, List.not_mem_nil, false_imp_iff, implies_true,
      and_true]
    refine ⟨?_, ?_, ?_⟩
    · refine .add (by simp [Expr.Canonical.sym, hp]) ⟨?_, ?_, ?_, ?_, ?_⟩ <;> decide +kernel
    · refine .add (by simp [Expr.Canonical.num, hp]) ⟨?_, ?_, ?_, ?_, ?_⟩ <;> decide +kernel
    · refine hproduct "q" ⟨?_, ?_, ?_, ?_, ?_⟩ <;> decide +kernel
  unnamed eq heq x hx i hxi := by
    have hnames : ∀ eq ∈ nested, ∀ x ∈ eq.lhs.symbols ++ eq.rhs.symbols,
        x.toList.head? ≠ some 'r' := by
      decide +kernel
    exact sym_ne_temporary (hnames eq heq x hx) i (congrArg Expr.sym hxi)

end Nested

end Temporaries

end Stencil
