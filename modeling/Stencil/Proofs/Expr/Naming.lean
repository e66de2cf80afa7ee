import Mathlib.Algebra.Order.BigOperators.Group.List
import Stencil.Proofs.Expr.Canonical
import Stencil.Proofs.Expr.Replace

/-!
This module contains replacements that put scalars or array elements in the place of
subexpressions. On canonical expressions these change nothing else: every operation keeps its kind
and its number of arguments, and can be restored.
-/

namespace Stencil

section Sorting

universe u

variable {α : Type u} {le : α → α → Bool}

theorem pairwise_insertBy (htotal : ∀ a b, le a b = true ∨ le b a = true)
    (htrans : ∀ a b c, le a b = true → le b c = true → le a c = true) (a : α) {as : List α}
    (h : as.Pairwise fun a b => le a b = true) :
    (insertBy le a as).Pairwise fun a b => le a b = true := by
  induction h with
  | nil => exact List.pairwise_singleton _ a
  | @cons b bs hb hbs ih =>
    rw [insertBy]
    split
    · next hab =>
      rw [List.pairwise_cons]
      refine ⟨fun c hc => ?_, .cons hb hbs⟩
      rcases List.mem_cons.1 hc with rfl | hc
      · exact hab
      · exact htrans a b c hab (hb c hc)
    · next hab =>
      refine .cons (fun c hc => ?_) ih
      rcases List.mem_cons.1 ((insertBy_perm le a bs).mem_iff.1 hc) with rfl | hc
      · exact (htotal c b).resolve_left hab
      · exact hb c hc

theorem pairwise_sortBy (htotal : ∀ a b, le a b = true ∨ le b a = true)
    (htrans : ∀ a b c, le a b = true → le b c = true → le a c = true) (as : List α) :
    (sortBy le as).Pairwise fun a b => le a b = true := by
  induction as with
  | nil => exact .nil
  | cons a as ih => exact pairwise_insertBy htotal htrans a ih

end Sorting

namespace Expr

theorem pairwise_sort (es : List Expr) :
    (sort es).Pairwise fun a b => (Expr.cmp a b).isLE = true := by
  apply pairwise_sortBy
  · intro a b
    rw [(cmp_orderedAt a).swap b]
    cases Expr.cmp a b <;> simp
  · intro a b c hab hbc
    exact Std.TransOrd.isLE_trans (a := a) (b := b) (c := c) hab hbc

theorem sort_eq_of_perm {es fs : List Expr} (h : es.Perm fs)
    (hsorted : fs.Pairwise fun a b => (Expr.cmp a b).isLE = true) : sort es = fs := by
  apply List.Perm.eq_of_pairwise _ (pairwise_sort es) hsorted ((sort_perm es).trans h)
  intro a b _ _ hab hba
  rw [(cmp_orderedAt a).swap b] at hba
  rw [← (cmp_orderedAt a).eq_iff b]
  cases hcmp : Expr.cmp a b <;> simp_all

theorem sort_congr {es fs : List Expr} (h : es.Perm fs) : sort es = sort fs :=
  sort_eq_of_perm (h.trans (sort_perm fs).symm) (pairwise_sort fs)

theorem foldNumbers_filter (op : Rat → Rat → Checked Rat) (c : Rat) (es : List Expr) :
    foldNumbers op c (es.filter isNumber) = foldNumbers op c es := by
  induction es generalizing c with
  | nil => rfl
  | cons e es ih =>
    cases he : e.isNumber with
    | true =>
      obtain ⟨q, rfl⟩ := isNumber_iff.1 he
      rw [List.filter_cons_of_pos he, foldNumbers, foldNumbers]
      exact congrArg _ (funext ih)
    | false => rw [List.filter_cons_of_neg (by simp [he]), foldNumbers_cons_of_not he, ih]

theorem perm_of_numbers_le (op : Rat → Rat → Checked Rat) {c : Rat} (hop : ∀ q, (op c q).value = q)
    {es : List Expr} (hle : (es.filter isNumber).length ≤ 1) (hc : num c ∉ es) :
    let q := (foldNumbers op c es).value
    (if q = c then es.filter (!·.isNumber) else es.filter (!·.isNumber) ++ [num q]).Perm es := by
  have hperm := List.filter_append_perm isNumber es
  rw [← foldNumbers_filter]
  match hnumbers : es.filter isNumber with
  | [] =>
    rw [hnumbers] at hperm
    simpa [foldNumbers] using hperm
  | [e] =>
    have he : e ∈ es ∧ e.isNumber = true := by
      rw [← List.mem_filter, hnumbers]
      exact List.mem_singleton_self e
    obtain ⟨q, rfl⟩ := isNumber_iff.1 he.2
    have hq : q ≠ c := fun hq => hc (hq ▸ he.1)
    rw [hnumbers] at hperm
    simpa [foldNumbers, hop, hq] using List.perm_append_comm.trans hperm
  | _ :: _ :: _ =>
    rw [hnumbers] at hle
    simp at hle

theorem Arguments.flatMap_eq {nested : Expr → Bool} {trivial : List Rat} {es : List Expr}
    (h : Arguments nested trivial (sort es)) {parts : Expr → List Expr}
    (hparts : ∀ e, nested e = false → parts e = [e]) : es.flatMap parts = es := by
  have hself : ∀ e ∈ es, parts e = [e] :=
    fun e he => hparts e (h.flat e ((sort_perm es).mem_iff.2 he))
  rw [List.flatMap_congr hself, List.flatMap_singleton']

theorem sum_eq_add {ts : List Expr} (h : Arguments isSum [0] (sort ts)) :
    (sum ts).value = add (sort ts) := by
  have hterms : ts.flatMap terms = ts := by
    apply h.flatMap_eq
    intro e he
    cases e <;> simp_all [isSum, terms]
  have hnumbers : (ts.filter isNumber).length ≤ 1 := by
    rw [← ((sort_perm ts).filter isNumber).length_eq]
    exact h.numbers_le
  have hzero : num 0 ∉ ts := fun hmem =>
    h.nontrivial 0 (by simp) ((sort_perm ts).mem_iff.2 hmem)
  have hperm := perm_of_numbers_le Fraction.add (by simp) hnumbers hzero
  have htwo := h.two_le
  simp only [sum, Checked.value_bind, Checked.value_pure, hterms, ofTerms, sort_congr hperm]
  split
  · simp_all
  · simp_all
  · rfl

theorem product_eq_mul {fs : List Expr} (h : Arguments isProduct [0, 1] (sort fs)) :
    (product fs).value = mul (sort fs) := by
  have hfactors : fs.flatMap factors = fs := h.flatMap_eq fun e he => factors_of_not_product he
  have hnumbers : (fs.filter isNumber).length ≤ 1 := by
    rw [← ((sort_perm fs).filter isNumber).length_eq]
    exact h.numbers_le
  have htrivial (q : Rat) (hq : q ∈ [0, 1]) : num q ∉ fs := fun hmem =>
    h.nontrivial q hq ((sort_perm fs).mem_iff.2 hmem)
  have hperm := perm_of_numbers_le Fraction.mul (by simp) hnumbers (htrivial 1 (by simp))
  have hne : (foldNumbers Fraction.mul 1 fs).value ≠ 0 :=
    foldNumbers_mul_ne_zero one_ne_zero (htrivial 0 (by simp))
  have htwo := h.two_le
  simp only [product, Checked.value_bind, Checked.value_pure, hfactors, ofFactors, hne, if_false,
    sort_congr hperm]
  split
  · simp_all
  · simp_all
  · rfl

theorem power_eq_pow {b : Expr} {n : Int} (hn : n ≠ 0 ∧ n ≠ 1)
    (hb : ∀ q, b = num q → q = 0 ∧ n < 0) : (power b n).value = pow b n := by
  unfold power
  rw [if_neg hn.1, if_neg hn.2]
  cases b with
  | num q =>
    obtain ⟨rfl, hneg⟩ := hb q rfl
    have hnot : ¬(0 < n ∨ (0 : Rat) ≠ 0) := by
      simp only [ne_eq, not_true_eq_false, or_false]
      omega
    simp only [hnot, if_false, Checked.value_pure]
  | _ => rfl

theorem Canonical.sum_eq {ts us : List Expr} (h : Canonical (.add ts)) (hperm : us.Perm ts) :
    (sum us).value = .add ts := by
  cases h with
  | add _ h =>
    have hsort := sort_eq_of_perm hperm h.sorted
    rw [sum_eq_add (by rwa [hsort]), hsort]

theorem Canonical.product_eq {fs gs : List Expr} (h : Canonical (.mul fs)) (hperm : gs.Perm fs) :
    (product gs).value = .mul fs := by
  cases h with
  | mul _ h =>
    have hsort := sort_eq_of_perm hperm h.sorted
    rw [product_eq_mul (by rwa [hsort]), hsort]

theorem Canonical.power_eq {b : Expr} {n : Int} (h : Canonical (.pow b n)) :
    (power b n).value = .pow b n := by
  cases h with
  | pow _ hn hnum => exact power_eq_pow hn hnum

theorem Canonical.of_mem_args {e a : Expr} (h : e.Canonical) (ha : a ∈ e.args) : a.Canonical := by
  cases h with
  | add hts _ => exact hts a ha
  | mul hfs _ => exact hfs a ha
  | pow hb _ _ => rwa [List.mem_singleton.1 ha]
  | call _ has => exact has a ha
  | _ => cases ha

theorem Canonical.of_within {x e : Expr} (h : e.Canonical) (hx : x.Within e) : x.Canonical := by
  induction hx with
  | self => exact h
  | arg ha _ ih => exact ih (h.of_mem_args ha)

theorem count_flatMap_le {α : Type} {as : List α} {f : α → List Expr} {o o' : Expr}
    (h : ∀ a ∈ as, (f a).count o ≤ (f a).count o') :
    (as.flatMap f).count o ≤ (as.flatMap f).count o' := by
  rw [List.count_flatMap, List.count_flatMap]
  exact List.sum_le_sum h

theorem cost_le_costOfList {es : List Expr} {e : Expr} (he : e ∈ es) : e.cost ≤ costOfList es := by
  induction es with
  | nil => cases he
  | cons e' es ih =>
    rw [costOfList]
    rcases List.mem_cons.1 he with rfl | he
    · omega
    · have := ih he
      omega

theorem Canonical.cost_lt_of_mem_args {e a : Expr} (h : e.Canonical) (ha : a ∈ e.args) :
    a.cost < e.cost := by
  cases h with
  | add _ hts =>
    have hle := cost_le_costOfList ha
    have htwo := hts.two_le
    rw [cost]
    dsimp only [args] at hle
    omega
  | mul _ hfs =>
    have hle := cost_le_costOfList ha
    have htwo := hfs.two_le
    rw [cost]
    dsimp only [args] at hle
    omega
  | pow _ _ _ =>
    rw [List.mem_singleton.1 ha, cost]
    omega
  | call _ _ =>
    have hle := cost_le_costOfList ha
    rw [cost]
    dsimp only [args] at hle
    omega
  | _ => cases ha

theorem Canonical.cost_lt_of_within {x e : Expr} (h : e.Canonical) (hx : x.Within e)
    (hne : x ≠ e) : x.cost < e.cost := by
  induction hx with
  | self => exact absurd rfl hne
  | @arg e a ha _ ih =>
    have hlt := h.cost_lt_of_mem_args ha
    by_cases hxa : x = a
    · rwa [hxa]
    · exact (ih (h.of_mem_args ha) hxa).trans hlt

theorem Canonical.notMem_operands {e : Expr} (h : e.Canonical) :
    e ∉ e.args.flatMap operations := by
  intro hmem
  obtain ⟨a, ha, hoperation⟩ := List.mem_flatMap.1 hmem
  have hlt := h.cost_lt_of_mem_args ha
  by_cases hea : e = a
  · rw [← hea] at hlt
    omega
  · have := (h.of_mem_args ha).cost_lt_of_within (mem_operations.1 hoperation).2 hea
    omega

theorem Canonical.count_operations_self {e : Expr} (h : e.Canonical) (hop : e.isOperation = true) :
    e.operations.count e = 1 := by
  rw [operations_eq hop, List.count_cons_self, List.count_eq_zero.2 h.notMem_operands]

theorem count_operations_le {e o o' : Expr} (he : e.Canonical) (ho : o' ∈ o.operations) :
    e.operations.count o ≤ e.operations.count o' := by
  induction e using args_induct with
  | leaf e hleaf => cases e <;> simp_all [operations, isOperation]
  | operation e hop ih =>
    by_cases heo : e = o
    · subst heo
      rw [he.count_operations_self hop]
      exact List.count_pos_iff.2 ho
    · rw [operations_eq hop, List.count_cons_of_ne heo]
      apply (count_flatMap_le fun a ha => ih a ha (he.of_mem_args ha)).trans
      exact List.count_le_count_cons ..

theorem Canonical.replace_eq_self {e : Expr} (he : e.Canonical) {τ : Expr → Option Expr}
    (h : ∀ x, x.Within e → τ x = none) : (replace τ e).value = e := by
  have hargs {es : List Expr} (ih : ∀ a ∈ es, (replace τ a).value = a) :
      es.map (fun a => (replace τ a).value) = es := by
    rw [List.map_congr_left ih, List.map_id']
  induction he with
  | num q => exact value_replace_of_leaf (h _ .self) rfl
  | sym s => exact value_replace_of_leaf (h _ .self) rfl
  | access f => exact value_replace_of_leaf (h _ .self) rfl
  | @add ts hts harguments ih =>
    rw [value_replace_add (h _ .self), hargs fun t ht => ih t ht fun x hx => h x (.arg ht hx)]
    exact (Canonical.add hts harguments).sum_eq (.refl _)
  | @mul fs hfs harguments ih =>
    rw [value_replace_mul (h _ .self), hargs fun f hf => ih f hf fun x hx => h x (.arg hf hx)]
    exact (Canonical.mul hfs harguments).product_eq (.refl _)
  | @pow b n hb hn hnum ih =>
    rw [value_replace_pow (h _ .self), ih fun x hx => h x (.arg (List.mem_singleton_self b) hx)]
    exact (Canonical.pow hb hn hnum).power_eq
  | @call s as _ ih =>
    rw [value_replace_call (h _ .self), hargs fun a ha => ih a ha fun x hx => h x (.arg ha hx)]

/-- A replacement that puts scalars and array elements in the place of other expressions. -/
def Atomic (σ : Expr → Option Expr) : Prop :=
  ∀ a b, σ a = some b → b.isAtom = true ∧ b.Canonical

/-- A replacement that puts scalars in the place of other expressions than numbers. -/
def Naming (σ : Expr → Option Expr) : Prop :=
  ∀ a b, σ a = some b → a.isNumber = false ∧ ∃ s, b = sym s

structure Kept (e e' : Expr) : Prop where
  number : e'.isNumber = true → e' = e
  sum : e'.isSum = true → e.isSum = true
  product : e'.isProduct = true → e.isProduct = true

theorem Arguments.map {nested : Expr → Bool} {trivial : List Rat} {es : List Expr}
    (h : Arguments nested trivial es) {f : Expr → Expr}
    (hnested : ∀ e ∈ es, nested (f e) = true → nested e = true)
    (hnumber : ∀ e ∈ es, (f e).isNumber = true → f e = e) :
    Arguments nested trivial (sort (es.map f)) where
  two_le := by
    rw [(sort_perm _).length_eq, List.length_map]
    exact h.two_le
  sorted := pairwise_sort _
  flat e' he' := by
    obtain ⟨e, he, rfl⟩ := List.mem_map.1 ((sort_perm _).mem_iff.1 he')
    rw [← Bool.not_eq_true]
    intro hfe
    have hflat := h.flat e he
    rw [hnested e he hfe] at hflat
    cases hflat
  numbers_le := by
    rw [((sort_perm _).filter isNumber).length_eq, ← List.countP_eq_length_filter, List.countP_map]
    apply Nat.le_trans _ h.numbers_le
    rw [← List.countP_eq_length_filter]
    apply List.countP_mono_left
    intro e he hfe
    rwa [← hnumber e he hfe]
  nontrivial q hq hmem := by
    obtain ⟨e, he, hfe⟩ := List.mem_map.1 ((sort_perm _).mem_iff.1 hmem)
    rw [hnumber e he (by rw [hfe]; rfl)] at hfe
    exact h.nontrivial q hq (hfe ▸ he)

namespace Atomic

variable {σ : Expr → Option Expr}

/--
Induction over a replacement by atoms in canonical expressions. Operations are still canonical when
their arguments have been replaced; only the order of the arguments is a new one.
-/
theorem induct (hσ : Atomic σ) {motive : Expr → Expr → Prop}
    (found : ∀ e e', σ e = some e' → motive e e')
    (leaf : ∀ e, e.Canonical → σ e = none → e.isOperation = false → motive e e)
    (add : ∀ ts us, Canonical (.add ts) → Canonical (.add us) → σ (.add ts) = none →
      us.Perm (ts.map fun t => (replace σ t).value) → (∀ t ∈ ts, motive t (replace σ t).value) →
      motive (.add ts) (.add us))
    (mul : ∀ fs gs, Canonical (.mul fs) → Canonical (.mul gs) → σ (.mul fs) = none →
      gs.Perm (fs.map fun f => (replace σ f).value) → (∀ f ∈ fs, motive f (replace σ f).value) →
      motive (.mul fs) (.mul gs))
    (pow : ∀ b n, Canonical (.pow b n) → Canonical (.pow (replace σ b).value n) →
      σ (.pow b n) = none → motive b (replace σ b).value →
      motive (.pow b n) (.pow (replace σ b).value n))
    (call : ∀ s as, Canonical (.call s as) →
      Canonical (.call s (as.map fun a => (replace σ a).value)) → σ (.call s as) = none →
      (∀ a ∈ as, motive a (replace σ a).value) →
      motive (.call s as) (.call s (as.map fun a => (replace σ a).value)))
    (e : Expr) (he : e.Canonical) : motive e (replace σ e).value := by
  -- Whether operations can be rebuilt depends on what is left of their arguments.
  suffices h : (replace σ e).value.Canonical ∧ Kept e (replace σ e).value ∧
      motive e (replace σ e).value from h.2.2
  revert he
  induction e using replace_induct (σ := σ) with
  | found e e' hfound =>
    intro _
    obtain ⟨hatom, hcanonical⟩ := hσ e e' hfound
    refine ⟨hcanonical, ?_, found e e' hfound⟩
    cases e' with
    | sym s => exact ⟨by simp [isNumber], by simp [isSum], by simp [isProduct]⟩
    | access f is => exact ⟨by simp [isNumber], by simp [isSum], by simp [isProduct]⟩
    | _ => cases hatom
  | leaf e hnone hleaf => exact fun he => ⟨he, ⟨fun _ => rfl, id, id⟩, leaf e he hnone hleaf⟩
  | add ts hnone ih =>
    intro he
    have hts (t : Expr) (ht : t ∈ ts) : t.Canonical := he.of_mem_args ht
    have hresult : Canonical (.add (sort (ts.map fun t => (replace σ t).value))) ∧
        (Expr.sum (ts.map fun t => (replace σ t).value)).value =
          .add (sort (ts.map fun t => (replace σ t).value)) := by
      cases he with
      | add _ h =>
        have harguments := h.map (fun t ht => (ih t ht (hts t ht)).2.1.sum)
          fun t ht => (ih t ht (hts t ht)).2.1.number
        refine ⟨.add (fun t' ht' => ?_) harguments, sum_eq_add harguments⟩
        obtain ⟨t, ht, rfl⟩ := List.mem_map.1 ((sort_perm _).mem_iff.1 ht')
        exact (ih t ht (hts t ht)).1
    rw [hresult.2]
    refine ⟨hresult.1, ⟨by simp [isNumber], fun _ => rfl, by simp [isProduct]⟩, ?_⟩
    exact add ts _ he hresult.1 hnone (sort_perm _) fun t ht => (ih t ht (hts t ht)).2.2
  | mul fs hnone ih =>
    intro he
    have hfs (f : Expr) (hf : f ∈ fs) : f.Canonical := he.of_mem_args hf
    have hresult : Canonical (.mul (sort (fs.map fun f => (replace σ f).value))) ∧
        (Expr.product (fs.map fun f => (replace σ f).value)).value =
          .mul (sort (fs.map fun f => (replace σ f).value)) := by
      cases he with
      | mul _ h =>
        have harguments := h.map (fun f hf => (ih f hf (hfs f hf)).2.1.product)
          fun f hf => (ih f hf (hfs f hf)).2.1.number
        refine ⟨.mul (fun f' hf' => ?_) harguments, product_eq_mul harguments⟩
        obtain ⟨f, hf, rfl⟩ := List.mem_map.1 ((sort_perm _).mem_iff.1 hf')
        exact (ih f hf (hfs f hf)).1
    rw [hresult.2]
    refine ⟨hresult.1, ⟨by simp [isNumber], by simp [isSum], fun _ => rfl⟩, ?_⟩
    exact mul fs _ he hresult.1 hnone (sort_perm _) fun f hf => (ih f hf (hfs f hf)).2.2
  | pow b n hnone ih =>
    intro he
    have hresult : Canonical (.pow (replace σ b).value n) ∧
        (power (replace σ b).value n).value = .pow (replace σ b).value n := by
      cases he with
      | pow hb hn hnum =>
        have hnum' (q : Rat) (hq : (replace σ b).value = .num q) : q = 0 ∧ n < 0 := by
          apply hnum
          rw [← hq]
          exact ((ih hb).2.1.number (by rw [hq]; rfl)).symm
        exact ⟨.pow (ih hb).1 hn hnum', power_eq_pow hn hnum'⟩
    rw [hresult.2]
    refine ⟨hresult.1, ⟨by simp [isNumber], by simp [isSum], by simp [isProduct]⟩, ?_⟩
    exact pow b n he hresult.1 hnone (ih (he.of_mem_args (List.mem_singleton_self b))).2.2
  | call s as hnone ih =>
    intro he
    have has (a : Expr) (ha : a ∈ as) : a.Canonical := he.of_mem_args ha
    have hresult : Canonical (.call s (as.map fun a => (replace σ a).value)) := by
      apply Canonical.call
      intro a' ha'
      obtain ⟨a, ha, rfl⟩ := List.mem_map.1 ha'
      exact (ih a ha (has a ha)).1
    refine ⟨hresult, ⟨by simp [isNumber], by simp [isSum], by simp [isProduct]⟩, ?_⟩
    exact call s as he hresult hnone fun a ha => (ih a ha (has a ha)).2.2

end Atomic

namespace Naming

variable {σ : Expr → Option Expr}

theorem atomic (hσ : Naming σ) : Atomic σ := by
  intro a b hab
  obtain ⟨-, s, rfl⟩ := hσ a b hab
  exact ⟨rfl, .sym s⟩

theorem induct (hσ : Naming σ) {motive : Expr → Expr → Prop}
    (found : ∀ e s, σ e = some (sym s) → motive e (sym s))
    (leaf : ∀ e, e.Canonical → σ e = none → e.isOperation = false → motive e e)
    (add : ∀ ts us, Canonical (.add ts) → Canonical (.add us) → σ (.add ts) = none →
      us.Perm (ts.map fun t => (replace σ t).value) → (∀ t ∈ ts, motive t (replace σ t).value) →
      motive (.add ts) (.add us))
    (mul : ∀ fs gs, Canonical (.mul fs) → Canonical (.mul gs) → σ (.mul fs) = none →
      gs.Perm (fs.map fun f => (replace σ f).value) → (∀ f ∈ fs, motive f (replace σ f).value) →
      motive (.mul fs) (.mul gs))
    (pow : ∀ b n, Canonical (.pow b n) → Canonical (.pow (replace σ b).value n) →
      σ (.pow b n) = none → motive b (replace σ b).value →
      motive (.pow b n) (.pow (replace σ b).value n))
    (call : ∀ s as, Canonical (.call s as) →
      Canonical (.call s (as.map fun a => (replace σ a).value)) → σ (.call s as) = none →
      (∀ a ∈ as, motive a (replace σ a).value) →
      motive (.call s as) (.call s (as.map fun a => (replace σ a).value)))
    (e : Expr) (he : e.Canonical) : motive e (replace σ e).value := by
  refine hσ.atomic.induct (fun e e' hfound => ?_) leaf add mul pow call e he
  obtain ⟨-, s, rfl⟩ := hσ e e' hfound
  exact found e s hfound

theorem canonical_replace (hσ : Naming σ) {e : Expr} (he : e.Canonical) :
    (replace σ e).value.Canonical := by
  apply hσ.induct (motive := fun _ e' => e'.Canonical) _ _ _ _ _ _ e he
  · exact fun _ s _ => .sym s
  · exact fun _ he _ _ => he
  · exact fun _ _ _ hus _ _ _ => hus
  · exact fun _ _ _ hgs _ _ _ => hgs
  · exact fun _ _ _ hpow _ _ => hpow
  · exact fun _ _ _ hcall _ _ => hcall

section Values

variable {K : Type} [Field K] [DecidableEq K] {I : Interpretation K} {ρ ρ' : String → K}

theorem denote_replace (hσ : Naming σ) (hcall : ∀ s as bs vs, I.call s as vs = I.call s bs vs)
    (hfound : ∀ a s, σ a = some (sym s) → ρ' s = a.denote I ρ) {e : Expr} (he : e.Canonical)
    (hatom : ∀ a, a.isAtom = true → a.Within e → σ a = none → a.denote I ρ' = a.denote I ρ) :
    (replace σ e).value.denote I ρ' = e.denote I ρ := by
  have hargs {e : Expr}
      (ih : ∀ a ∈ e.args,
        (∀ x, x.isAtom = true → x.Within a → σ x = none → x.denote I ρ' = x.denote I ρ) →
        (replace σ a).value.denote I ρ' = a.denote I ρ)
      (hatom : ∀ a, a.isAtom = true → a.Within e → σ a = none → a.denote I ρ' = a.denote I ρ) :
      (e.args.map fun a => (replace σ a).value).map (denote I ρ') = e.args.map (denote I ρ) := by
    rw [List.map_map]
    apply List.map_congr_left
    intro a ha
    exact ih a ha fun x hx hwithin => hatom x hx (.arg ha hwithin)
  refine hσ.induct (motive := fun e e' =>
    (∀ a, a.isAtom = true → a.Within e → σ a = none → a.denote I ρ' = a.denote I ρ) →
      e'.denote I ρ' = e.denote I ρ) ?found ?leaf ?add ?mul ?pow ?call e he hatom
  case found => exact fun e s hs _ => hfound e s hs
  case leaf =>
    intro e _ hnone hleaf hatom
    cases e with
    | num q => rfl
    | sym s => exact hatom _ rfl .self hnone
    | access f is => exact hatom _ rfl .self hnone
    | _ => cases hleaf
  case add =>
    intro ts us _ _ _ hperm ih hatom
    simp only [denote, denoteAll_eq_map]
    rw [(hperm.map _).sum_eq]
    exact congrArg List.sum (hargs (e := .add ts) ih hatom)
  case mul =>
    intro fs gs _ _ _ hperm ih hatom
    simp only [denote, denoteAll_eq_map]
    rw [(hperm.map _).prod_eq]
    exact congrArg List.prod (hargs (e := .mul fs) ih hatom)
  case pow =>
    intro b n _ _ _ ih hatom
    rw [denote, denote,
      ih fun x hx hwithin => hatom x hx (.arg (List.mem_singleton_self b) hwithin)]
  case call =>
    intro s as _ _ _ ih hatom
    simp only [denote, denoteAll_eq_map]
    rw [hcall s _ as]
    exact congrArg (I.call s as) (hargs (e := .call s as) ih hatom)

end Values

theorem operation_replace (hσ : Naming σ) {e : Expr} (he : e.Canonical) (hnone : σ e = none)
    (hop : e.isOperation = true) :
    (replace σ e).value.isOperation = true ∧
      (replace σ e).value.args.Perm (e.args.map fun a => (replace σ a).value) := by
  refine hσ.induct (motive := fun e e' => σ e = none → e.isOperation = true →
    e'.isOperation = true ∧ e'.args.Perm (e.args.map fun a => (replace σ a).value))
    ?found ?leaf ?add ?mul ?pow ?call e he hnone hop
  case found =>
    intro e s hs hnone
    rw [hs] at hnone
    cases hnone
  case leaf =>
    intro e _ _ hleaf _ hop
    rw [hop] at hleaf
    cases hleaf
  case add => exact fun ts us _ _ _ hperm _ _ _ => ⟨rfl, hperm⟩
  case mul => exact fun fs gs _ _ _ hperm _ _ _ => ⟨rfl, hperm⟩
  case pow => exact fun b n _ _ _ _ _ _ => ⟨rfl, .refl _⟩
  case call => exact fun s as _ _ _ _ _ _ => ⟨rfl, .refl _⟩

theorem exists_operations_flatMap {es : List Expr}
    (h : ∀ e ∈ es, ∃ os : List Expr, os.Sublist e.operations ∧ (∀ o ∈ os, σ o = none) ∧
      (replace σ e).value.operations.Perm (os.map fun o => (replace σ o).value)) :
    ∃ os : List Expr, os.Sublist (es.flatMap operations) ∧ (∀ o ∈ os, σ o = none) ∧
      ((es.map fun e => (replace σ e).value).flatMap operations).Perm
        (os.map fun o => (replace σ o).value) := by
  induction es with
  | nil => exact ⟨[], .slnil, by simp, .refl _⟩
  | cons e es ih =>
    obtain ⟨os, hsub, hnone, hperm⟩ := h e (List.mem_cons_self ..)
    obtain ⟨os', hsub', hnone', hperm'⟩ := ih fun e he => h e (List.mem_cons_of_mem _ he)
    refine ⟨os ++ os', ?_, List.forall_mem_append.2 ⟨hnone, hnone'⟩, ?_⟩
    · rw [List.flatMap_cons]
      exact hsub.append hsub'
    · rw [List.map_cons, List.flatMap_cons, List.map_append]
      exact hperm.append hperm'

theorem exists_operations_replace (hσ : Naming σ) {e : Expr} (he : e.Canonical) :
    ∃ os : List Expr, os.Sublist e.operations ∧ (∀ o ∈ os, σ o = none) ∧
      (replace σ e).value.operations.Perm (os.map fun o => (replace σ o).value) := by
  induction e using args_induct with
  | leaf e hleaf =>
    refine ⟨[], List.nil_sublist _, by simp, ?_⟩
    cases hcase : σ e with
    | none =>
      rw [value_replace_of_leaf hcase hleaf]
      cases e <;> simp_all [operations, isOperation]
    | some b =>
      obtain ⟨-, s, rfl⟩ := hσ e b hcase
      rw [value_replace_of_some hcase]
      exact .refl _
  | operation e hop ih =>
    cases hcase : σ e with
    | none =>
      obtain ⟨hop', hargs⟩ := hσ.operation_replace he hcase hop
      obtain ⟨os, hsub, hnone, hperm⟩ :=
        exists_operations_flatMap fun a ha => ih a ha (he.of_mem_args ha)
      refine ⟨e :: os, ?_, List.forall_mem_cons.2 ⟨hcase, hnone⟩, ?_⟩
      · rw [operations_eq hop]
        exact hsub.cons_cons e
      · rw [operations_eq hop', List.map_cons]
        exact ((hargs.flatMap_right _).trans hperm).cons _
    | some b =>
      obtain ⟨-, s, rfl⟩ := hσ e b hcase
      rw [value_replace_of_some hcase]
      exact ⟨[], List.nil_sublist _, by simp, .refl _⟩

end Naming

end Expr

end Stencil
